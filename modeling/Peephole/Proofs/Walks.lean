import Peephole.Graph.Walk
import Peephole.Proofs.Entries

/-!
# What walks visit

A walk whose visitor always goes on visits the operations of a tree in pre-order.
`Graph.Forest g n os l` says that `l` is the pre-order list of the trees under `os`, none
of them deeper than `n`.  It looks at the lists downwards only, so it can be used on
graphs whose links upwards are not known to agree with them.

`Forest.walkAll_eq` says that such a walk is a fold over this list, and `nestedOps_eq_ok`
and `opTree_eq_ok` that the lists the library collects are of this kind.
-/

namespace Peephole

variable {α β σ : Type}

/-! ## Walks one after the other -/

theorem walkAll_append {walk : σ → α → Except Fault (Walked σ β)} (l₂ : List α) :
    ∀ (l₁ : List α) (s : σ), walkAll walk s (l₁ ++ l₂) = walkAll walk s l₁ >>= fun
      | (s, some answer) => .ok (s, some answer)
      | (s, none) => walkAll walk s l₂
  | [], s => rfl
  | a :: l₁, s => by
      rw [List.cons_append, walkAll, walkAll]
      cases walk s a with
      | error e => rfl
      | ok w =>
        obtain ⟨s', _ | answer⟩ := w
        · exact walkAll_append l₂ l₁ s'
        · rfl

theorem walkAll_singleton (walk : σ → α → Except Fault (Walked σ β)) (s : σ) (a : α) :
    walkAll walk s [a] = walk s a := by
  rw [walkAll]
  cases walk s a with
  | error e => rfl
  | ok w =>
    obtain ⟨s', _ | answer⟩ := w
    · rfl
    · rfl

theorem answer_of_walkAll {walk : σ → α → Except Fault (Walked σ β)}
    (hwalk : ∀ {s a s' answer}, walk s a = .ok (s', answer) → answer = none) :
    ∀ {l : List α} {s s' : σ} {answer : Option β}, walkAll walk s l = .ok (s', answer) →
      answer = none
  | [], s, s', answer, h => by
      cases h
      rfl
  | a :: l, s, s', answer, h => by
      rw [walkAll, bind_eq_ok] at h
      obtain ⟨⟨s₁, _ | b⟩, ha, h⟩ := h
      · exact answer_of_walkAll hwalk h
      · cases hwalk ha

theorem mapM_cons_eq_ok {f : α → Except Fault β} {a : α} {l : List α} {bs : List β} :
    (a :: l).mapM f = .ok bs ↔ ∃ b bs', f a = .ok b ∧ l.mapM f = .ok bs' ∧ bs = b :: bs' := by
  rw [List.mapM_cons]
  simp only [bind_eq_ok, pure_eq_ok, Except.ok.injEq]
  grind

theorem mapM_eq_nil_iff {f : α → Except Fault β} {l : List α} {bs : List β}
    (h : l.mapM f = .ok bs) : bs = [] ↔ l = [] := by
  cases l with
  | nil =>
    cases h
    simp
  | cons a l =>
    obtain ⟨b, bs', -, -, rfl⟩ := mapM_cons_eq_ok.1 h
    simp

theorem mapM_map_eq_ok {γ : Type} {f : α → Except Fault β} {k : β → γ} :
    ∀ {l : List α} {bs : List β}, l.mapM f = .ok bs →
      l.mapM (fun a => (f a).map k) = .ok (bs.map k)
  | [], bs, h => by
      cases h
      rfl
  | a :: l, bs, h => by
      obtain ⟨b, bs', hb, hl, rfl⟩ := mapM_cons_eq_ok.1 h
      exact mapM_cons_eq_ok.2 ⟨k b, bs'.map k, by rw [hb, map_ok], mapM_map_eq_ok hl, rfl⟩

/-- Each element of a list of answers answers a question of the list. -/
theorem mem_of_mapM {f : α → Except Fault β} :
    ∀ {l : List α} {bs : List β}, l.mapM f = .ok bs →
      (∀ b ∈ bs, ∃ a ∈ l, f a = .ok b) ∧ ∀ a ∈ l, ∃ b ∈ bs, f a = .ok b
  | [], bs, h => by
      cases h
      simp
  | a :: l, bs, h => by
      obtain ⟨b, bs', hb, hl, rfl⟩ := mapM_cons_eq_ok.1 h
      obtain ⟨hback, hforth⟩ := mem_of_mapM hl
      constructor
      · intro c hc
        rcases List.mem_cons.1 hc with rfl | hc
        · exact ⟨a, .head l, hb⟩
        · obtain ⟨x, hx, hxc⟩ := hback c hc
          exact ⟨x, .tail a hx, hxc⟩
      · intro x hx
        rcases List.mem_cons.1 hx with rfl | hx
        · exact ⟨b, .head bs', hb⟩
        · obtain ⟨c, hc, hxc⟩ := hforth x hx
          exact ⟨c, .tail b hc, hxc⟩

/-- Questions that all have an answer are answered together. -/
theorem mapM_ok {f : α → Except Fault β} :
    ∀ {l : List α}, (∀ a ∈ l, ∃ b, f a = .ok b) → ∃ bs, l.mapM f = .ok bs
  | [], _ => ⟨[], rfl⟩
  | a :: l, h => by
      obtain ⟨b, hb⟩ := h a (.head l)
      obtain ⟨bs, hbs⟩ := mapM_ok fun x hx => h x (.tail a hx)
      exact ⟨b :: bs, mapM_cons_eq_ok.2 ⟨b, bs, hb, hbs, rfl⟩⟩

theorem mapM_of_mapM_map {γ : Type} {f : α → Except Fault β} {k : β → γ} {l : List α}
    {cs : List γ} (h : l.mapM (fun a => (f a).map k) = .ok cs) :
    ∃ bs, l.mapM f = .ok bs ∧ cs = bs.map k := by
  have hsome : ∀ a ∈ l, ∃ b, f a = .ok b := by
    intro a ha
    obtain ⟨c, -, hc⟩ := (mem_of_mapM h).2 a ha
    obtain ⟨b, hb, -⟩ := map_eq_ok.1 hc
    exact ⟨b, hb⟩
  obtain ⟨bs, hbs⟩ := mapM_ok hsome
  rw [mapM_map_eq_ok hbs] at h
  cases h
  exact ⟨bs, hbs, rfl⟩

/-- What the answers to a list of questions hold. -/
theorem mem_flatMap_of_mapM {γ : Type} {f : α → Except Fault β} {k : β → List γ} {l : List α}
    {bs : List β} (h : l.mapM f = .ok bs) {c : γ} :
    c ∈ bs.flatMap k ↔ ∃ a ∈ l, ∃ b, f a = .ok b ∧ c ∈ k b := by
  obtain ⟨hback, hforth⟩ := mem_of_mapM h
  rw [List.mem_flatMap]
  constructor
  · rintro ⟨b, hb, hc⟩
    obtain ⟨a, ha, hab⟩ := hback b hb
    exact ⟨a, ha, b, hab, hc⟩
  · rintro ⟨a, ha, b, hab, hc⟩
    obtain ⟨b', hb', hab'⟩ := hforth a ha
    rw [hab] at hab'
    cases hab'
    exact ⟨b, hb', hc⟩

section Listed

variable {γ : Type} {walk : σ → γ → Except Fault (Walked σ β)} {list : α → Except Fault (List γ)}

/-- Walking lists one after the other is walking them as one list. -/
theorem walkAll_lists :
    ∀ {l : List α} {lists : List (List γ)}, l.mapM list = .ok lists → ∀ s : σ,
      walkAll (fun s a => list a >>= walkAll walk s) s l = walkAll walk s lists.flatten
  | [], lists, h, s => by
      cases h
      rfl
  | a :: l, lists, h, s => by
      obtain ⟨cs, lists', ha, hl, rfl⟩ := mapM_cons_eq_ok.1 h
      rw [walkAll, ha, ok_bind, List.flatten_cons, walkAll_append]
      apply bind_congr
      rintro ⟨s', _ | answer⟩
      · exact walkAll_lists hl s'
      · rfl

/-- A walk that comes to its end has found every list. -/
theorem lists_of_walkAll :
    ∀ {l : List α} {s s' : σ},
      walkAll (fun s a => list a >>= walkAll walk s) s l = .ok (s', none) →
      ∃ lists, l.mapM list = .ok lists
  | [], s, s', _ => ⟨[], rfl⟩
  | a :: l, s, s', h => by
      rw [walkAll, bind_eq_ok] at h
      obtain ⟨⟨s₁, answer⟩, h₁, h⟩ := h
      obtain ⟨cs, hcs, -⟩ := bind_eq_ok.1 h₁
      cases answer with
      | some answer => cases h
      | none =>
        obtain ⟨lists, hlists⟩ := lists_of_walkAll h
        exact ⟨cs :: lists, mapM_cons_eq_ok.2 ⟨cs, lists, hcs, hlists, rfl⟩⟩

end Listed

namespace Graph

variable {g : Graph}

/-! ## Children -/

/-- The blocks directly inside an operation. -/
def innerBlocks (g : Graph) (o : OpId) : Except Fault (List BlockId) := do
  let regions ← (← g.op o).regions.mapM g.region
  return regions.flatMap Region.blocks

/-- The operations directly inside an operation, in order. -/
def children (g : Graph) (o : OpId) : Except Fault (List OpId) := do
  let blocks ← (← g.innerBlocks o).mapM g.block
  return blocks.flatMap Block.ops

theorem innerBlocks_eq_ok {o : OpId} {bs : List BlockId} : g.innerBlocks o = .ok bs ↔
    ∃ d Rs, g.op o = .ok d ∧ d.regions.mapM g.region = .ok Rs ∧ bs = Rs.flatMap Region.blocks := by
  simp only [innerBlocks, bind_eq_ok, pure_eq_ok, Except.ok.injEq]
  grind

theorem children_eq_ok {o : OpId} {cs : List OpId} : g.children o = .ok cs ↔
    ∃ bs Bs, g.innerBlocks o = .ok bs ∧ bs.mapM g.block = .ok Bs ∧ cs = Bs.flatMap Block.ops := by
  simp only [children, bind_eq_ok, pure_eq_ok, Except.ok.injEq]
  grind

theorem mem_innerBlocks {o : OpId} {bs : List BlockId} (h : g.innerBlocks o = .ok bs)
    {b : BlockId} : b ∈ bs ↔
      ∃ d r R, g.op o = .ok d ∧ r ∈ d.regions ∧ g.region r = .ok R ∧ b ∈ R.blocks := by
  obtain ⟨d, Rs, hd, hRs, rfl⟩ := innerBlocks_eq_ok.1 h
  rw [mem_flatMap_of_mapM hRs]
  constructor
  · rintro ⟨r, hr, R, hR, hb⟩
    exact ⟨d, r, R, hd, hr, hR, hb⟩
  · rintro ⟨d', r, R, hd', hr, hR, hb⟩
    rw [hd] at hd'
    cases hd'
    exact ⟨r, hr, R, hR, hb⟩

theorem mem_children {o : OpId} {cs : List OpId} {bs : List BlockId} (h : g.children o = .ok cs)
    (hbs : g.innerBlocks o = .ok bs) {p : OpId} :
    p ∈ cs ↔ ∃ b ∈ bs, ∃ B, g.block b = .ok B ∧ p ∈ B.ops := by
  obtain ⟨bs', Bs, hbs', hBs, rfl⟩ := children_eq_ok.1 h
  rw [hbs] at hbs'
  cases hbs'
  exact mem_flatMap_of_mapM hBs

theorem walkRegionBy_eq (walk : σ → OpId → Except Fault (Walked σ β)) : g.walkRegionBy walk =
    fun s r => (g.region r).map Region.blocks >>= walkAll (g.walkBlockBy walk) s := by
  funext s r
  rw [walkRegionBy]
  cases g.region r with
  | ok R => rfl
  | error e => rfl

theorem walkBlockBy_eq (walk : σ → OpId → Except Fault (Walked σ β)) : g.walkBlockBy walk =
    fun s b => (g.block b).map Block.ops >>= walkAll walk s := by
  funext s b
  rw [walkBlockBy]
  cases g.block b with
  | ok B => rfl
  | error e => rfl

/-- Walking the regions of an operation is walking its children. -/
theorem walkRegions_eq {o : OpId} {d : Op} {cs : List OpId} (hd : g.op o = .ok d)
    (hcs : g.children o = .ok cs) (walk : σ → OpId → Except Fault (Walked σ β)) (s : σ) :
    walkAll (g.walkRegionBy walk) s d.regions = walkAll walk s cs := by
  obtain ⟨bs, Bs, hbs, hBs, rfl⟩ := children_eq_ok.1 hcs
  obtain ⟨d', Rs, hd', hRs, rfl⟩ := innerBlocks_eq_ok.1 hbs
  rw [hd] at hd'
  cases hd'
  rw [walkRegionBy_eq, walkAll_lists (mapM_map_eq_ok hRs), ← List.flatMap_def, walkBlockBy_eq,
    walkAll_lists (mapM_map_eq_ok hBs), ← List.flatMap_def]

/-- A walk of the regions of an operation that comes to its end has found its children. -/
theorem children_of_walkRegions {o : OpId} {d : Op} {s s' : σ}
    {walk : σ → OpId → Except Fault (Walked σ β)} (hd : g.op o = .ok d)
    (h : walkAll (g.walkRegionBy walk) s d.regions = .ok (s', none)) :
    ∃ cs, g.children o = .ok cs := by
  rw [walkRegionBy_eq] at h
  obtain ⟨lists, hlists⟩ := lists_of_walkAll h
  obtain ⟨Rs, hRs, rfl⟩ := mapM_of_mapM_map hlists
  rw [walkAll_lists hlists, ← List.flatMap_def, walkBlockBy_eq] at h
  obtain ⟨lists', hlists'⟩ := lists_of_walkAll h
  obtain ⟨Bs, hBs, -⟩ := mapM_of_mapM_map hlists'
  exact ⟨_, children_eq_ok.2 ⟨_, Bs, innerBlocks_eq_ok.2 ⟨d, Rs, hd, hRs, rfl⟩, hBs, rfl⟩⟩

/-! ## Trees -/

/-- The pre-order list of the trees under some operations, none deeper than `n`. -/
inductive Forest (g : Graph) : Nat → List OpId → List OpId → Prop
  | nil {n : Nat} : Forest g n [] []
  | cons {n : Nat} {o : OpId} {os cs inner rest : List OpId} : g.children o = .ok cs →
      Forest g n cs inner → Forest g (n + 1) os rest →
      Forest g (n + 1) (o :: os) (o :: (inner ++ rest))

namespace Forest

variable {n : Nat} {os l : List OpId}

/-- A walk whose visitor always goes on is a fold over the trees. -/
theorem walkAll_eq (h : Forest g n os l) {visit : Visitor σ β} {f : σ → OpId → Except Fault σ}
    (hvisit : ∀ s o, visit s o = (f s o).map fun s => (s, .advance)) (s : σ) :
    walkAll (g.walkTreeTo visit n) s os = (l.foldlM f s).map fun s => (s, none) := by
  induction h generalizing s with
  | nil => rfl
  | @cons n o os cs inner rest hcs _ _ ihin ihrest =>
    obtain ⟨bs, _, hbs, -⟩ := children_eq_ok.1 hcs
    obtain ⟨d, _, hd, -⟩ := innerBlocks_eq_ok.1 hbs
    rw [walkAll, walkTreeTo, hvisit, List.foldlM_cons]
    cases f s o with
    | error e => rfl
    | ok s₁ =>
      simp only [map_ok, ok_bind, hd]
      rw [walkRegions_eq hd hcs, ihin, List.foldlM_append]
      cases inner.foldlM f s₁ with
      | error e => rfl
      | ok s₂ => exact ihrest s₂

end Forest

theorem answer_of_walkRegions {walk : σ → OpId → Except Fault (Walked σ β)}
    (hwalk : ∀ {s o s' answer}, walk s o = .ok (s', answer) → answer = none)
    {rs : List RegionId} {s s' : σ} {answer : Option β}
    (h : walkAll (g.walkRegionBy walk) s rs = .ok (s', answer)) : answer = none := by
  refine answer_of_walkAll ?_ h
  intro s r s' answer hr
  obtain ⟨R, -, hr⟩ := bind_eq_ok.1 hr
  refine answer_of_walkAll ?_ hr
  intro s b s' answer hb
  obtain ⟨B, -, hb⟩ := bind_eq_ok.1 hb
  exact answer_of_walkAll hwalk hb

/-- A walk whose visitor always goes on is never stopped. -/
theorem answer_of_walkTreeTo {visit : Visitor σ β} {f : σ → OpId → Except Fault σ}
    (hvisit : ∀ s o, visit s o = (f s o).map fun s => (s, .advance)) :
    ∀ {n : Nat} {s s' : σ} {o : OpId} {answer : Option β},
      g.walkTreeTo visit n s o = .ok (s', answer) → answer = none
  | 0, s, s', o, answer, h => by
      cases h
  | n + 1, s, s', o, answer, h => by
      rw [walkTreeTo, hvisit, bind_eq_ok] at h
      obtain ⟨_, hs, h⟩ := h
      obtain ⟨s₁, -, rfl⟩ := map_eq_ok.1 hs
      obtain ⟨d, -, h⟩ := bind_eq_ok.1 h
      exact answer_of_walkRegions (answer_of_walkTreeTo hvisit) h

theorem collector_eq (seen : List OpId) (o : OpId) :
    collector seen o = (Except.ok (o :: seen)).map fun s => (s, .advance) := rfl

/-- A walk that collects what it sees finds the trees. -/
theorem forest_of_walkAll :
    ∀ {n : Nat} {os seen seen' : List OpId},
      walkAll (g.walkTreeTo collector n) seen os = .ok (seen', none) →
      ∃ l, Forest g n os l ∧ seen' = l.reverse ++ seen
  | n, [], seen, seen', h => by
      cases h
      exact ⟨[], .nil, rfl⟩
  | 0, o :: os, seen, seen', h => by
      rw [walkAll] at h
      cases h
  | n + 1, o :: os, seen, seen', h => by
      rw [walkAll, bind_eq_ok] at h
      obtain ⟨⟨seen₁, answer⟩, ho, h⟩ := h
      cases answer_of_walkTreeTo collector_eq ho
      simp only [walkTreeTo, collector, pure_eq_ok, ok_bind, bind_eq_ok] at ho
      obtain ⟨d, hd, ho⟩ := ho
      obtain ⟨cs, hcs⟩ := children_of_walkRegions hd ho
      rw [walkRegions_eq hd hcs] at ho
      obtain ⟨inner, hinner, rfl⟩ := forest_of_walkAll ho
      obtain ⟨rest, hrest, rfl⟩ := forest_of_walkAll h
      exact ⟨_, .cons hcs hinner hrest, by simp⟩
termination_by n os => (n, os.length)

theorem walkAll_collector {n : Nat} {os seen seen' : List OpId} {answer : Option Unit} :
    walkAll (g.walkTreeTo collector n) seen os = .ok (seen', answer) ↔
      answer = none ∧ ∃ l, Forest g n os l ∧ seen' = l.reverse ++ seen := by
  constructor
  · intro h
    cases answer_of_walkAll (answer_of_walkTreeTo collector_eq) h
    exact ⟨rfl, forest_of_walkAll h⟩
  · rintro ⟨rfl, l, hl, rfl⟩
    have hfold : ∀ (l seen : List OpId),
        l.foldlM (fun seen o => (.ok (o :: seen) : Except Fault _)) seen =
          .ok (l.reverse ++ seen) := by
      intro l
      induction l with
      | nil =>
        intro seen
        rfl
      | cons o l ih =>
        intro seen
        rw [List.foldlM_cons, ok_bind, ih]
        simp
    rw [hl.walkAll_eq collector_eq, hfold, map_ok]

theorem walkInside_eq {o : OpId} {cs : List OpId} (hcs : g.children o = .ok cs)
    (visit : Visitor σ β) (s : σ) :
    g.walkInside visit s o = walkAll (g.walkTreeTo visit g.depth) s cs := by
  obtain ⟨bs, _, hbs, -⟩ := children_eq_ok.1 hcs
  obtain ⟨d, _, hd, -⟩ := innerBlocks_eq_ok.1 hbs
  rw [walkInside, hd, ok_bind]
  exact walkRegions_eq hd hcs _ s

/-- The operations nested in an operation are the trees under its children. -/
theorem nestedOps_eq_ok {o : OpId} {l : List OpId} :
    g.nestedOps o = .ok l ↔ ∃ cs, g.children o = .ok cs ∧ Forest g g.depth cs l := by
  rw [nestedOps, bind_eq_ok]
  constructor
  · rintro ⟨⟨seen, answer⟩, h, hl⟩
    cases hl
    obtain ⟨d, hd, h⟩ := bind_eq_ok.1 h
    cases answer_of_walkRegions (answer_of_walkTreeTo collector_eq) h
    obtain ⟨cs, hcs⟩ := children_of_walkRegions hd h
    obtain ⟨l, hl, rfl⟩ := forest_of_walkAll ((walkRegions_eq hd hcs _ []).symm.trans h)
    exact ⟨cs, hcs, by simpa using hl⟩
  · rintro ⟨cs, hcs, hl⟩
    refine ⟨(l.reverse, none), ?_, by simp⟩
    rw [walkInside_eq hcs]
    exact walkAll_collector.2 ⟨rfl, l, hl, by simp⟩

theorem opTree_eq_ok {o : OpId} {l : List OpId} : g.opTree o = .ok l ↔ Forest g g.depth [o] l := by
  rw [opTree, walkTree, ← walkAll_singleton (g.walkTreeTo collector g.depth), bind_eq_ok]
  constructor
  · rintro ⟨⟨seen, answer⟩, h, hl⟩
    cases hl
    obtain ⟨-, l, hl, rfl⟩ := walkAll_collector.1 h
    simpa using hl
  · intro h
    exact ⟨(l.reverse, none), walkAll_collector.2 ⟨rfl, l, h, by simp⟩, by simp⟩

/-! ## What is in a tree -/

namespace Forest

variable {n : Nat} {os l : List OpId}

theorem roots (h : Forest g n os l) : ∀ {o : OpId}, o ∈ os → o ∈ l := by
  induction h with
  | nil =>
    intro o ho
    cases ho
  | cons _ _ _ _ ihrest =>
    intro o ho
    rcases List.mem_cons.1 ho with rfl | ho
    · exact .head _
    · exact .tail _ (List.mem_append_right _ (ihrest ho))

/-- A tree has the children of each operation in it. -/
theorem closed (h : Forest g n os l) : ∀ {p : OpId}, p ∈ l →
    ∃ ps, g.children p = .ok ps ∧ ∀ q ∈ ps, q ∈ l := by
  induction h with
  | nil =>
    intro p hp
    cases hp
  | @cons n o os cs inner rest hcs hin _ ihin ihrest =>
    intro p hp
    rcases List.mem_cons.1 hp with rfl | hp
    · exact ⟨cs, hcs, fun q hq => .tail _ (List.mem_append_left _ (hin.roots hq))⟩
    · rcases List.mem_append.1 hp with hp | hp
      · obtain ⟨ps, hps, hsub⟩ := ihin hp
        exact ⟨ps, hps, fun q hq => .tail _ (List.mem_append_left _ (hsub q hq))⟩
      · obtain ⟨ps, hps, hsub⟩ := ihrest hp
        exact ⟨ps, hps, fun q hq => .tail _ (List.mem_append_right _ (hsub q hq))⟩

end Forest

end Graph

end Peephole
