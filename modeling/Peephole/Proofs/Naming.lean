import Peephole.Proofs.Availability
import Peephole.Proofs.Confinement
import Peephole.Proofs.Erasure
import Peephole.Proofs.Numbers

/-!
# Names in printed texts

In the text of a function a value is written by name wherever it is read, and the name should be the
one that is written where the value is made.  `Reachable.opText_named` says when it is.

Lines come in an order that goes with scopes: each line stands after the pieces that number the
values visible there (`Linked.told`), and no value is numbered twice (`Linked.nodup_made_pieces`).
So a value that may be referred to is known by its name, as long as no function has begun since.
Functions inside functions are the exception.  `nestGraph` has one, which reads an argument of the
function around it, and there the operand is written `%?`.
-/

namespace Peephole

namespace Piece

variable {ps qs : List Piece} {v : ValueId}

/-! ## The order of pieces -/

/-- Each line comes after the values that are needed there: they are among those seen so far, or an
earlier piece makes them. -/
def Told (need : OpId → ValueId → Prop) (seen : List ValueId) : List Piece → Prop
  | [] => True
  | p :: ps =>
      (∀ l, p = .line l → ∀ v, need l.op v → v ∈ seen) ∧ Told need (seen ++ p.made) ps

section Told

variable {need : OpId → ValueId → Prop} {seen base : List ValueId} {inner : OpId → List Piece}

theorem told_append : Told need seen (ps ++ qs) ↔
    Told need seen ps ∧ Told need (seen ++ ps.flatMap made) qs := by
  induction ps generalizing seen with
  | nil => simp [Told]
  | cons p ps ih => simp [Told, ih, and_assoc]

theorem told_text (t : String) : Told need seen (.text t :: ps) ↔ Told need seen ps := by
  simp [Told, made]

theorem told_args (vs : List ValueId) (types : List Ty) :
    Told need seen (.args vs types :: ps) ↔ Told need (seen ++ vs) ps := by
  simp [Told, made]

theorem Told.line {above below : List Piece} {l : Line}
    (h : Told need seen (above ++ .line l :: below)) (hv : need l.op v) :
    v ∈ seen ++ above.flatMap made :=
  (told_append.1 h).2.1 l rfl v hv

/-- The pieces of an operation can be told once what is around its block, the arguments of the block
and all before it in the block have been. -/
def Ready (need : OpId → ValueId → Prop) (base : List ValueId) (inner : OpId → List Piece)
    (s : Sheet) : Prop :=
  ∀ a c b seen, s.ops = a ++ c :: b → base ⊆ seen → s.args ⊆ seen →
    (∀ p ∈ a, (inner p).flatMap made ⊆ seen) → Told need seen (inner c)

theorem Ready.told_ops {s : Sheet} (h : Ready need base inner s) {before ops : List OpId}
    (hops : s.ops = before ++ ops) (hbase : base ⊆ seen) (hargs : s.args ⊆ seen)
    (hbefore : ∀ p ∈ before, (inner p).flatMap made ⊆ seen) :
    Told need seen (ops.flatMap inner) := by
  induction ops generalizing before seen with
  | nil => trivial
  | cons c ops ih =>
    rw [List.flatMap_cons, told_append]
    refine ⟨h before c ops seen hops hbase hargs hbefore, ?_⟩
    have hgrow : seen ⊆ seen ++ (inner c).flatMap made := List.subset_append_left _ _
    have hops' : s.ops = before ++ [c] ++ ops := by simp [hops]
    refine ih hops' (List.Subset.trans hbase hgrow) (List.Subset.trans hargs hgrow) ?_
    intro p hp
    rcases List.mem_append.1 hp with hp | hp
    · exact List.Subset.trans (hbefore p hp) hgrow
    · cases List.mem_singleton.1 hp
      exact List.subset_append_right _ _

theorem Ready.told_body {s : Sheet} (h : Ready need base inner s) (hbase : base ⊆ seen)
    (hargs : s.args ⊆ seen) : Told need seen (Frame.expand s.body inner) := by
  rw [Frame.expand_body]
  exact h.told_ops (List.nil_append _).symm hbase hargs nofun

end Told

end Piece

section Laid

open Piece

theorem Frame.Laid.told {need : OpId → ValueId → Prop} {base seen : List ValueId}
    {inner : OpId → List Piece} {sheets : List Sheet} {frame : Frame} (h : Frame.Laid sheets frame)
    (hready : ∀ s ∈ sheets, Ready need base inner s) (hbase : base ⊆ seen) :
    Told need seen (frame.expand inner) := by
  induction h generalizing seen with
  | nil => trivial
  | say t _ ih =>
    rw [Frame.expand_say, told_text]
    exact ih hready hbase
  | @bare s sheets frame hs _ ih =>
    rw [Frame.expand_append, told_append]
    refine ⟨(hready s (.head _)).told_body hbase (hs ▸ List.nil_subset _), ?_⟩
    exact ih (fun s hs => hready s (.tail _ hs)) (List.subset_append_of_subset_left _ hbase)
  | @signed s sheets frame t _ ih =>
    rw [Sheet.signature, Frame.expand_inl, Frame.expand_say, told_args, told_text,
      Frame.expand_append, told_append]
    have hgrow : base ⊆ seen ++ s.args := List.subset_append_of_subset_left _ hbase
    refine ⟨(hready s (.head _)).told_body hgrow (List.subset_append_right _ _), ?_⟩
    exact ih (fun s hs => hready s (.tail _ hs)) (List.subset_append_of_subset_left _ hgrow)

end Laid

/-- The values that are numbered where a block is printed. -/
def Sheet.made (s : Sheet) (inner : OpId → List Piece) : List ValueId :=
  s.args ++ s.ops.flatMap fun c => (inner c).flatMap Piece.made

namespace Graph

variable {g : Graph} {root o : OpId} {v : ValueId} {n m w : Nat} {ps : List Piece}

/-- The value is a result of a function in the root.  Functions are printed without results. -/
def FuncResult (g : Graph) (root : OpId) (v : ValueId) : Prop :=
  ∃ p x, g.Inside root p ∧ g.op p = .ok x ∧ x.kind = .func ∧ v ∈ x.results

/-- An operation that is not a function has its results among the values that its pieces make. -/
theorem results_subset_made {d : Op} (h : g.piecesTo n w o = .ok ps) (hd : g.op o = .ok d)
    (hkind : d.kind ≠ .func) : d.results ⊆ ps.flatMap Piece.made := by
  obtain ⟨_, x, regions, inner, t, rest, -, hx, -, -, -, rfl⟩ := piecesTo_laid h
  rw [hd] at hx
  cases hx
  have hopening : Frame.opening (d.line o) = .line (d.line o) := if_neg hkind
  rw [hopening]
  exact List.subset_append_left _ _

/-- Where the pieces of an operation come after what is visible at the operation, each line in them
comes after what is visible there. -/
theorem Linked.told (hg : g.Linked) {seen : List ValueId} (ho : Within g root m o)
    (h : g.piecesTo n w o = .ok ps)
    (hseen : ∀ v, g.Visible v o → ¬g.FuncResult root v → v ∈ seen) :
    Piece.Told (fun o v => g.Visible v o ∧ ¬g.FuncResult root v) seen ps := by
  induction n generalizing m w o ps seen with
  | zero => cases h
  | succ n ih =>
    obtain ⟨_, d, regions, inner, t, rest, hn, hd, hregions, hinner, hlaid, rfl⟩ := piecesTo_laid h
    cases hn
    refine (Piece.told_text t).2 ⟨?_, hlaid.told ?_ (List.subset_append_left seen _)⟩
    · intro l hl v hv
      unfold Frame.opening at hl
      split at hl
      · cases hl
      · cases hl
        exact hseen v hv.1 hv.2
    · intro s hs a c b seen' hops hbase hargs hbefore
      have hc : c ∈ s.ops := by simp [hops]
      have howner := hg.ownerOf?_of_shown hd hregions hs hc
      refine ih (.step howner ho) (hinner s hs c hc) fun v hv hfunc => ?_
      obtain ⟨b', hb', hs'⟩ := contained_of_shown hd hregions hs
      obtain ⟨B, types, hB, -, rfl⟩ := sheet_eq_ok.1 hs'
      cases hv with
      | argument hB' hc' hv =>
        obtain ⟨rfl, rfl⟩ := hg.block_unique hB hB' hc hc'
        exact hargs hv
      | @earlier _ p x hpc hx hv =>
        obtain ⟨b'', B', hB', hbefore'⟩ := id hpc
        obtain ⟨rfl, rfl⟩ := hg.block_unique hB hB' hc (hbefore'.subset (.tail p (.head _)))
        have hnodup := hg.nodupOps hB
        dsimp only at hops
        rw [hops] at hnodup hbefore'
        have hp : p ∈ a := (before_iff hnodup).1 hbefore'
        have hpops : p ∈ B.ops := by simp [hops, hp]
        have hkind : x.kind ≠ .func := fun hkind =>
          hfunc ⟨p, x, ⟨m, .step ((hg.ownerOf?_of_precedes hpc).trans howner) ho⟩, hx, hkind, hv⟩
        exact hbefore p hp (results_subset_made (hinner _ hs p hpops) hx hkind hv)
      | outer howner' hv =>
        rw [howner] at howner'
        cases howner'
        exact hbase (hseen v hv hfunc)

/-! ## Values are numbered once -/

/-- The operation makes the value as a result that is printed, or the value is an argument of a
block in it. -/
def Introduces (g : Graph) (o : OpId) (v : ValueId) : Prop :=
  (∃ d, g.op o = .ok d ∧ d.kind ≠ .func ∧ v ∈ d.results) ∨
    ∃ b B, g.Contained o b ∧ g.block b = .ok B ∧ v ∈ B.args

/-- The value is an argument of the block, or an operation in it makes it. -/
def MadeIn (g : Graph) (b : BlockId) (v : ValueId) : Prop :=
  ∃ B, g.block b = .ok B ∧ (v ∈ B.args ∨ ∃ c ∈ B.ops, ∃ k p, Within g c k p ∧ g.Introduces p v)

namespace Linked

theorem nodup_args (hg : g.Linked) {b : BlockId} {B : Block} (hB : g.block b = .ok B) :
    B.args.Nodup := by
  rw [List.nodup_iff_getElem?_ne_getElem?]
  intro i j hij hj heq
  obtain ⟨v, hv⟩ : ∃ v, B.args[j]? = some v := ⟨_, List.getElem?_eq_getElem hj⟩
  obtain ⟨y, hy, hyi⟩ := hg.argument.2 ⟨B, hB, heq.trans hv⟩
  obtain ⟨y', hy', hyj⟩ := hg.argument.2 ⟨B, hB, hv⟩
  rw [hy] at hy'
  cases hy'
  rw [hyi] at hyj
  cases hyj
  exact Nat.lt_irrefl i hij

/-- A value is an argument of one block at most. -/
theorem argument_unique (hg : g.Linked) {b c : BlockId} {B C : Block} (hB : g.block b = .ok B)
    (hv : v ∈ B.args) (hC : g.block c = .ok C) (hv' : v ∈ C.args) : b = c := by
  obtain ⟨y, i, hy, hi⟩ := hg.origin_argument hB hv
  obtain ⟨y', j, hy', hj⟩ := hg.origin_argument hC hv'
  rw [hy] at hy'
  cases hy'
  rw [hi] at hj
  cases hj
  rfl

/-- A block is in one region only. -/
theorem region_unique (hg : g.Linked) {b : BlockId} {r r' : RegionId} {R R' : Region}
    (hR : g.region r = .ok R) (hR' : g.region r' = .ok R') (hb : b ∈ R.blocks)
    (hb' : b ∈ R'.blocks) : r = r' := by
  obtain ⟨B, hB, hBr⟩ := hg.parted.2 ⟨R, hR, hb⟩
  obtain ⟨B', hB', hBr'⟩ := hg.parted.2 ⟨R', hR', hb'⟩
  rw [hB] at hB'
  cases hB'
  exact Option.some.inj (hBr.symm.trans hBr')

theorem contained_unique (hg : g.Linked) {p : OpId} {b : BlockId} (ho : g.Contained o b)
    (hp : g.Contained p b) : o = p := by
  obtain ⟨d, r, R, hd, hr, hR, hb⟩ := ho
  obtain ⟨d', r', R', hd', hr', hR', hb'⟩ := hp
  cases hg.region_unique hR hR' hb hb'
  obtain ⟨S, hS, howner⟩ := hg.owned.2 ⟨d, slot_of_op hd, hr⟩
  obtain ⟨S', hS', howner'⟩ := hg.owned.2 ⟨d', slot_of_op hd', hr'⟩
  rw [hS] at hS'
  cases hS'
  exact Option.some.inj (howner.symm.trans howner')

theorem introduces_unique (hg : g.Linked) {p : OpId} (ho : g.Introduces o v)
    (hp : g.Introduces p v) : o = p := by
  rcases ho with ⟨d, hd, -, hv⟩ | ⟨b, B, hb, hB, hv⟩
  · rcases hp with ⟨d', hd', -, hv'⟩ | ⟨c, C, -, hC, hv'⟩
    · exact hg.result_unique (slot_of_op hd) hv (slot_of_op hd') hv'
    · exact absurd hv (hg.argument_not_result hC hv' (slot_of_op hd))
  · rcases hp with ⟨d', hd', -, hv'⟩ | ⟨c, C, hc, hC, hv'⟩
    · exact absurd hv' (hg.argument_not_result hB hv (slot_of_op hd'))
    · cases hg.argument_unique hB hv hC hv'
      exact hg.contained_unique hb hc

section Level

variable (hg : g.Linked) (hroot : ¬g.Inside root root) (ho : Within g root m o)
include hg hroot ho

/-- What an operation makes is not made further inside. -/
theorem not_made_inside {c p : OpId} {k : Nat} (hv : g.Introduces o v)
    (hc : g.ownerOf? c = .ok (some o)) (hk : Within g c k p) : ¬g.Introduces p v := by
  intro hp
  cases hg.introduces_unique hv hp
  have hlevel := ho.level_unique hroot ((Within.step hc ho).trans hk)
  omega

/-- A result of an operation is not made in its blocks. -/
theorem not_madeIn {d : Op} {b : BlockId} (hd : g.op o = .ok d) (hkind : d.kind ≠ .func)
    (hv : v ∈ d.results) (hb : g.Contained o b) : ¬g.MadeIn b v := by
  rintro ⟨B, hB, hv' | ⟨c, hc, k, p, hk, hp⟩⟩
  · exact hg.argument_not_result hB hv' (slot_of_op hd) hv
  · have howner := hg.ownerOf?_of_contained hb hB hc
    exact hg.not_made_inside hroot ho (.inl ⟨d, hd, hkind, hv⟩) howner hk hp

/-- A value is made in one block at most of those in an operation. -/
theorem madeIn_unique {b c : BlockId} (hb : g.Contained o b) (hc : g.Contained o c)
    (hv : g.MadeIn b v) (hv' : g.MadeIn c v) : b = c := by
  obtain ⟨B, hB, hv⟩ := hv
  obtain ⟨C, hC, hv'⟩ := hv'
  rcases hv with hv | ⟨p, hp, i, q, hi, hq⟩
  · rcases hv' with hv' | ⟨p', hp', j, q', hj, hq'⟩
    · exact hg.argument_unique hB hv hC hv'
    · have howner := hg.ownerOf?_of_contained hc hC hp'
      exact absurd hq' (hg.not_made_inside hroot ho (.inr ⟨b, B, hb, hB, hv⟩) howner hj)
  · have howner := hg.ownerOf?_of_contained hb hB hp
    rcases hv' with hv' | ⟨p', hp', j, q', hj, hq'⟩
    · exact absurd hq (hg.not_made_inside hroot ho (.inr ⟨c, C, hc, hC, hv'⟩) howner hi)
    · have howner' := hg.ownerOf?_of_contained hc hC hp'
      cases hg.introduces_unique hq hq'
      cases Within.branch_unique hroot (.step howner ho) (.step howner' ho) hi hj
      exact (hg.block_unique hB hC hp hp').1

end Level

/-- What the pieces of an operation make is made by the operation or further inside. -/
theorem introduces_of_made (hg : g.Linked) (h : g.piecesTo n w o = .ok ps)
    (hv : v ∈ ps.flatMap Piece.made) : ∃ k p, Within g o k p ∧ g.Introduces p v := by
  obtain ⟨q, hq, hv⟩ := List.mem_flatMap.1 hv
  obtain ⟨t, rfl⟩ | ⟨k, p, x, hk, hx, ⟨-, rfl⟩ | ⟨hkind, rfl⟩ | ⟨b, B, types, hb, hB, rfl⟩⟩ :=
    hg.mem_pieces h hq
  · cases hv
  · cases hv
  · exact ⟨k, p, hk, .inl ⟨x, hx, hkind, hv⟩⟩
  · exact ⟨k, p, hk, .inr ⟨b, B, hb, hB, hv⟩⟩

section Block

variable {inner : OpId → List Piece} {b : BlockId} {s : Sheet} (hs : g.sheet b = .ok s)
  (hmakes : ∀ c ∈ s.ops, ∀ v ∈ (inner c).flatMap Piece.made,
    ∃ k p, Within g c k p ∧ g.Introduces p v)
include hs hmakes

theorem madeIn_of_mem (hv : v ∈ s.made inner) : g.MadeIn b v := by
  obtain ⟨B, types, hB, -, rfl⟩ := sheet_eq_ok.1 hs
  refine ⟨B, hB, ?_⟩
  rcases List.mem_append.1 hv with hv | hv
  · exact .inl hv
  · obtain ⟨c, hc, hv⟩ := List.mem_flatMap.1 hv
    exact .inr ⟨c, hc, hmakes c hc v hv⟩

/-- Where a block is printed, each value is numbered once. -/
theorem nodup_sheet (hg : g.Linked) (hroot : ¬g.Inside root root) (ho : Within g root m o)
    (hb : g.Contained o b) (hinner : ∀ c ∈ s.ops, ((inner c).flatMap Piece.made).Nodup) :
    (s.made inner).Nodup := by
  obtain ⟨B, types, hB, -, rfl⟩ := sheet_eq_ok.1 hs
  have howner : ∀ c ∈ B.ops, g.ownerOf? c = .ok (some o) :=
    fun c hc => hg.ownerOf?_of_contained hb hB hc
  refine List.nodup_append'.2 ⟨hg.nodup_args hB, List.nodup_flatMap.2 ⟨hinner, ?_⟩, ?_⟩
  · refine (hg.nodupOps hB).imp_of_mem fun {c c'} hc hc' hne v hv hv' => hne ?_
    obtain ⟨i, p, hi, hp⟩ := hmakes c hc v hv
    obtain ⟨j, p', hj, hp'⟩ := hmakes c' hc' v hv'
    cases hg.introduces_unique hp hp'
    exact Within.branch_unique hroot (.step (howner c hc) ho) (.step (howner c' hc') ho) hi hj
  · intro v hv hv'
    obtain ⟨c, hc, hv'⟩ := List.mem_flatMap.1 hv'
    obtain ⟨k, p, hk, hp⟩ := hmakes c hc v hv'
    exact hg.not_made_inside hroot ho (.inr ⟨b, B, hb, hB, hv⟩) (howner c hc) hk hp

end Block

/-- Where the blocks of an operation are printed, each value is numbered once. -/
theorem nodup_shown {d : Op} {regions : List (List Sheet)} {inner : OpId → List Piece}
    (hg : g.Linked) (hroot : ¬g.Inside root root) (ho : Within g root m o) (hd : g.op o = .ok d)
    (hregions : d.regions.mapM g.sheets = .ok regions)
    (hmakes : ∀ s ∈ Frame.shown (d.line o) regions, ∀ c ∈ s.ops,
      ∀ v ∈ (inner c).flatMap Piece.made, ∃ k p, Within g c k p ∧ g.Introduces p v)
    (hinner : ∀ s ∈ Frame.shown (d.line o) regions, ∀ c ∈ s.ops,
      ((inner c).flatMap Piece.made).Nodup) :
    ((Frame.shown (d.line o) regions).flatMap fun s => s.made inner).Nodup := by
  have hblock : ∀ {r R b s}, r ∈ d.shownRegions → g.region r = .ok R → b ∈ R.blocks →
      g.sheet b = .ok s → g.Contained o b ∧ s ∈ Frame.shown (d.line o) regions :=
    fun {r R b s} hr hR hb hs => ⟨⟨d, r, R, hd, d.shownRegions_sublist.subset hr, hR, hb⟩,
      (mem_shown hregions).2 ⟨r, hr, R, hR, b, hb, hs⟩⟩
  have hmadeIn : ∀ {r R b s v}, r ∈ d.shownRegions → g.region r = .ok R → b ∈ R.blocks →
      g.sheet b = .ok s → v ∈ s.made inner → g.Contained o b ∧ g.MadeIn b v := by
    intro r R b s v hr hR hb hs hv
    obtain ⟨hb, hmem⟩ := hblock hr hR hb hs
    exact ⟨hb, madeIn_of_mem hs (hmakes s hmem) hv⟩
  obtain ⟨rs, hrs, hshown⟩ := shown_eq_flatten (o := o) hregions
  rw [hshown, ← List.flatMap_id, List.flatMap_assoc]
  refine nodup_flatMap_of_mapM hrs ?_ ?_ ?_
  · exact (hg.formed (slot_of_op hd)).1.sublist d.shownRegions_sublist
  · intro r hr ss hss
    obtain ⟨R, hR, hss⟩ := sheets_eq_ok.1 hss
    refine nodup_flatMap_of_mapM hss (hg.nodupBlocks hR) ?_ ?_
    · intro b hb s hs
      obtain ⟨hb, hmem⟩ := hblock hr hR hb hs
      exact nodup_sheet hs (hmakes s hmem) hg hroot ho hb (hinner s hmem)
    · intro b hb b' hb' s s' v hs hs' hv hv'
      obtain ⟨hb, hv⟩ := hmadeIn hr hR hb hs hv
      obtain ⟨hb', hv'⟩ := hmadeIn hr hR hb' hs' hv'
      exact hg.madeIn_unique hroot ho hb hb' hv hv'
  · intro r hr r' hr' ss ss' v hss hss' hv hv'
    obtain ⟨R, hR, hss⟩ := sheets_eq_ok.1 hss
    obtain ⟨R', hR', hss'⟩ := sheets_eq_ok.1 hss'
    obtain ⟨b, hb, s, hs, hv⟩ := (mem_flatMap_of_mapM hss).1 hv
    obtain ⟨b', hb', s', hs', hv'⟩ := (mem_flatMap_of_mapM hss').1 hv'
    obtain ⟨hbo, hv⟩ := hmadeIn hr hR hb hs hv
    obtain ⟨hbo', hv'⟩ := hmadeIn hr' hR' hb' hs' hv'
    cases hg.madeIn_unique hroot ho hbo hbo' hv hv'
    exact hg.region_unique hR hR' hb hb'

/-- Pieces number each value once. -/
theorem nodup_made_pieces (hg : g.Linked) (hroot : ¬g.Inside root root) (ho : Within g root m o)
    (h : g.piecesTo n w o = .ok ps) : (ps.flatMap Piece.made).Nodup := by
  induction n generalizing m w o ps with
  | zero => cases h
  | succ n ih =>
    obtain ⟨_, d, regions, inner, t, rest, hn, hd, hregions, hinner, hlaid, rfl⟩ := piecesTo_laid h
    cases hn
    have hmakes : ∀ s ∈ Frame.shown (d.line o) regions, ∀ c ∈ s.ops,
        ∀ v ∈ (inner c).flatMap Piece.made, ∃ k p, Within g c k p ∧ g.Introduces p v :=
      fun s hs c hc v hv => hg.introduces_of_made (hinner s hs c hc) hv
    have hmade : (Piece.text t :: Frame.opening (d.line o) :: rest.expand inner).flatMap
        Piece.made = (Frame.opening (d.line o)).made ++
          (Frame.shown (d.line o) regions).flatMap fun s => s.made inner := by
      rw [List.flatMap_cons, List.flatMap_cons,
        hlaid.flatMap Piece.made (fun _ => rfl) fun _ => rfl]
      rfl
    rw [hmade]
    refine List.nodup_append'.2 ⟨?_, hg.nodup_shown hroot ho hd hregions hmakes ?_, ?_⟩
    · unfold Frame.opening
      split
      · exact List.nodup_nil
      · exact hg.nodup_results (slot_of_op hd)
    · intro s hs c hc
      exact ih (.step (hg.ownerOf?_of_shown hd hregions hs hc) ho) (hinner s hs c hc)
    · intro v hv hv'
      obtain ⟨s, hs, hv'⟩ := List.mem_flatMap.1 hv'
      obtain ⟨b, hb, hsheet⟩ := contained_of_shown hd hregions hs
      unfold Frame.opening at hv
      split at hv
      · cases hv
      · rename_i hkind
        exact hg.not_madeIn hroot ho hd hkind hv hb (madeIn_of_mem hsheet (hmakes s hs) hv')

end Linked

/-! ## Functions inside functions -/

/-- Where numbering starts over there is a function. -/
theorem Linked.func_of_restart (hg : g.Linked) (h : g.piecesTo n w o = .ok ps)
    (hps : .restart ∈ ps) : ∃ k p x, Within g o k p ∧ g.op p = .ok x ∧ x.kind = .func := by
  obtain ⟨t, hq⟩ | ⟨k, p, x, hk, hx, ⟨hkind, -⟩ | ⟨-, hq⟩ | ⟨b, B, types, -, -, hq⟩⟩ :=
    hg.mem_pieces h hps
  · cases hq
  · exact ⟨k, p, x, hk, hx, hkind⟩
  · cases hq
  · cases hq

/-- A line is that of an operation. -/
theorem Linked.entry_of_line (hg : g.Linked) {l : Line} (h : g.piecesTo n w o = .ok ps)
    (hps : .line l ∈ ps) : ∃ k x, Within g o k l.op ∧ g.op l.op = .ok x ∧ x.kind ≠ .func ∧
      l = x.line l.op := by
  obtain ⟨t, hq⟩ | ⟨k, p, x, hk, hx, ⟨-, hq⟩ | ⟨hkind, hq⟩ | ⟨b, B, types, -, -, hq⟩⟩ :=
    hg.mem_pieces h hps
  · cases hq
  · cases hq
  · cases hq
    exact ⟨k, x, hk, hx, hkind, rfl⟩
  · cases hq

/-- In a function without functions inside, nothing is forgotten. -/
theorem Linked.not_forgotten (hg : g.Linked) {d : Op} (hd : g.op o = .ok d) (hkind : d.kind = .func)
    (hno : ∀ p x, g.Inside o p → g.op p = .ok x → x.kind ≠ .func) {below : List Piece}
    (h : g.piecesTo n w o = .ok (ps ++ below)) : ¬Piece.Forgotten ps v := by
  rintro ⟨before, q, since, rfl, hv, hsince⟩
  obtain ⟨m, x, regions, inner, t, rest, -, hx, hregions, hinner, hlaid, hps⟩ := piecesTo_laid h
  rw [hd] at hx
  cases hx
  have hopening : Frame.opening (d.line o) = .restart := if_pos hkind
  rw [hopening] at hps
  -- what makes a value stands after the opening of the function
  have hrest : .restart ∈ rest.expand inner := by
    rcases before with _ | ⟨a, _ | ⟨b, before⟩⟩
    · obtain ⟨rfl, -⟩ : q = .text t ∧ _ := by simpa using hps
      cases hv
    · obtain ⟨-, rfl, -⟩ : _ ∧ q = .restart ∧ _ := by simpa using hps
      cases hv
    · obtain ⟨-, -, htail⟩ : _ ∧ _ ∧ before ++ q :: since ++ below = rest.expand inner := by
        simpa using hps
      rw [← htail]
      simp [hsince]
  obtain ⟨_, hq⟩ | ⟨s, hs, hq | ⟨c, hc, hmem⟩⟩ := hlaid.mem_expand hrest
  · cases hq
  · cases hq
  obtain ⟨k, p, y, hk, hy, hfunc⟩ := hg.func_of_restart (hinner s hs c hc) hmem
  have howner := hg.ownerOf?_of_shown hd hregions hs hc
  exact hno p y ⟨k, Nat.add_comm 1 k ▸ (Within.step howner .root).trans hk⟩ hy hfunc

/-- Results of functions are never numbered. -/
theorem Linked.not_made_of_funcResult (hg : g.Linked) (h : g.piecesTo n w o = .ok ps)
    (hv : g.FuncResult root v) : v ∉ ps.flatMap Piece.made := by
  obtain ⟨p, x, -, hx, hkind, hv⟩ := hv
  intro hmade
  obtain ⟨k, q, -, ⟨y, hy, hkind', hv'⟩ | ⟨b, B, -, hB, hv'⟩⟩ := hg.introduces_of_made h hmade
  · cases hg.result_unique (slot_of_op hx) hv (slot_of_op hy) hv'
    rw [hx] at hy
    cases hy
    exact hkind' hkind
  · exact hg.argument_not_result hB hv' (slot_of_op hx) hv

/-! ## Faithful names -/

/-- If the first check finds nothing, what an operation in the root reads may be referred to. -/
theorem Linked.available_of_validateScopes (hg : g.Linked) {report : Report} {x : Op}
    (hroot : g.ownerOf? root = .ok none) (hreport : g.validateScopes root = .ok report)
    (hok : report.isOk = true) (ho : g.Inside root o) (hx : g.op o = .ok x)
    (hv : v ∈ x.operands) : g.Available v o := by
  obtain ⟨found, hfound, hreport⟩ := bind_eq_ok.1 hreport
  cases hreport
  obtain rfl : found = [] := (Report.isOk_iff.1 hok).1
  obtain ⟨i, hi⟩ := List.mem_iff_getElem?.1 hv
  have hheld : g.held? ⟨o, i⟩ = some v := held?_eq_some.2 ⟨x, hx, hi⟩
  exact (hg.visible_of_unavailableOperands hroot hfound hheld ho).available

/-- In the text of an operation in no block, what is visible at a line is known there by the name
that it was given, unless a function has begun since or it is a result of a function. -/
theorem Linked.name_at_line (hg : g.Linked) (hroot : g.Detached root) {above below : List Piece}
    {l : Line} (hps : g.piecesTo n w root = .ok (above ++ .line l :: below))
    (hv : g.Visible v l.op) : (Piece.numbering above).name v ≠ "%?" ∧ Piece.Faithful above v ∨
      (Piece.numbering above).name v = "%?" ∧
        (Piece.Forgotten above v ∨ g.FuncResult root v) := by
  obtain ⟨d, hd, hblock⟩ := id hroot
  have hout : ¬g.Inside root root := not_inside_of_no_owner (ownerOf?_detached hd hblock)
  have hnodup := hg.nodup_made_pieces hout .root hps
  rw [List.flatMap_append] at hnodup
  by_cases hfunc : g.FuncResult root v
  · refine .inr ⟨Piece.name_of_not_made fun hmade => ?_, .inr hfunc⟩
    refine hg.not_made_of_funcResult hps hfunc ?_
    rw [List.flatMap_append]
    exact List.mem_append_left _ hmade
  · -- nothing is visible at the root itself, so nothing has to be seen before
    have htold : Piece.Told _ [] _ := hg.told .root hps fun v hv _ =>
      absurd hv (Visible.not_detached hg hroot)
    have hmade : v ∈ above.flatMap Piece.made := htold.line ⟨hv, hfunc⟩
    have hnamed := Piece.faithful_or_forgotten (List.nodup_append'.1 hnodup).1 hmade
    exact hnamed.imp_right (And.imp_right .inl)

/-- A line of the text of a function, after the given pieces, is that of an operation in the
function, and names are as they should be: what the operation reads may be referred to there; values
that have the same name are one, or both are unknown; and what may be referred to is known by the
name that it was given where it was numbered, unless a function has begun since or it is a result
of a function. -/
structure WellNamed (g : Graph) (root : OpId) (above : List Piece) (l : Line) : Prop where
  entry : ∃ x, g.op l.op = .ok x ∧ l = x.line l.op
  nested : g.Inside root l.op
  operands : ∀ v ∈ l.operands, g.Available v l.op
  distinct : ∀ v w, (Piece.numbering above).name v = (Piece.numbering above).name w →
    (Piece.numbering above).name v = "%?" ∨ v = w
  known : ∀ v, g.Available v l.op →
    (Piece.numbering above).name v ≠ "%?" ∧ Piece.Faithful above v ∨
      (Piece.numbering above).name v = "%?" ∧ (Piece.Forgotten above v ∨ g.FuncResult root v)

/-- The text of a function in no block, in which the first check finds nothing, numbers each value
once, and all its lines are well named.  If no function is nested in it, everything that may be
referred to at a line is known there by the name that it was given. -/
theorem Reachable.opText_named {d : Op} {report : Report} (h : g.Reachable false)
    (hd : g.op root = .ok d) (hkind : d.kind = .func) (hblock : d.block = none)
    (hreport : g.validateScopes root = .ok report) (hok : report.isOk = true) :
    ∃ ps, g.pieces root = .ok ps ∧ g.opText root = .ok (Piece.fillAll .empty ps).1 ∧
      (ps.flatMap Piece.made).Nodup ∧
      ∀ above l below, ps = above ++ .line l :: below → g.WellNamed root above l ∧
        ((∀ p x, g.Inside root p → g.op p = .ok x → x.kind ≠ .func) →
          ∀ v, g.Available v l.op →
            (Piece.numbering above).name v ≠ "%?" ∧ Piece.Faithful above v) := by
  have hg := h.linked
  have hnone : g.ownerOf? root = .ok none := ownerOf?_detached hd hblock
  have hroot : ¬g.Inside root root := not_inside_of_no_owner hnone
  obtain ⟨ps, hps, htext⟩ := hg.opText_pieces hd hroot
  have hnodup := hg.nodup_made_pieces hroot .root hps
  refine ⟨ps, hps, htext, hnodup, ?_⟩
  rintro above l below rfl
  have hline : .line l ∈ above ++ .line l :: below := by simp
  obtain ⟨k, x, hk, hx, hxkind, hl⟩ := hg.entry_of_line hps hline
  have hinside : g.Inside root l.op := by
    rcases hk.eq_or_inside with heq | hinside
    · rw [heq, hd] at hx
      cases hx
      exact absurd hkind hxkind
    · exact hinside
  have hknown := fun v (hv : g.Available v l.op) =>
    hg.name_at_line ⟨d, hd, hblock⟩ hps hv.visible
  refine ⟨⟨⟨x, hx, hl⟩, hinside, fun v hv => ?_, fun v w => ?_, hknown⟩, fun hno v hv => ?_⟩
  · rw [hl] at hv
    exact hg.available_of_validateScopes hnone hreport hok hinside hx hv
  · exact (Piece.fillAll_distinct .empty above).name_inj
  · rcases hknown v hv with hv | ⟨-, hv | ⟨p, y, hp, hy, hfunc, -⟩⟩
    · exact hv
    · exact absurd hv (hg.not_forgotten hd hkind hno hps)
    · exact absurd hfunc (hno p y hp hy)

/-- The first operation of the first branch reads the argument of the function, and there the
argument goes by the name that it has in the signature. -/
theorem opText_named_branches : ∃ above below, branchesGraph.pieces ⟨11⟩ = .ok (above ++
      .line ⟨⟨3⟩, .hadamard, [⟨0⟩], [⟨4⟩], [.qubit], .empty⟩ :: below) ∧
    (Piece.numbering above).name ⟨0⟩ ≠ "%?" ∧ Piece.Faithful above ⟨0⟩ := by
  have hbuilt := branchesGraph_function.built
  obtain ⟨ps, hps, -, -, hlines⟩ :=
    @hbuilt.opText_named _ ⟨11⟩ _ ⟨[], []⟩ rfl rfl rfl (by decide +kernel) rfl
  have hsplit : (branchesGraph.pieces ⟨11⟩).map (fun ps => decide (ps = ps.take 18 ++
      .line ⟨⟨3⟩, .hadamard, [⟨0⟩], [⟨4⟩], [.qubit], .empty⟩ :: ps.drop 19)) = .ok true := by
    decide +kernel
  rw [hps, map_ok, Except.ok.injEq, decide_eq_true_iff] at hsplit
  obtain ⟨hnamed, hall⟩ := hlines _ _ _ hsplit
  have hops : branchesGraph.nestedOps ⟨11⟩ =
      .ok [⟨0⟩, ⟨1⟩, ⟨2⟩, ⟨6⟩, ⟨3⟩, ⟨4⟩, ⟨5⟩, ⟨9⟩, ⟨7⟩, ⟨8⟩, ⟨10⟩] := by decide +kernel
  have hdetached : branchesGraph.Detached ⟨11⟩ := ⟨_, rfl, rfl⟩
  obtain ⟨nested, hnested, -, -, hmem⟩ := hbuilt.linked.nestedOps_ok hdetached
  cases hnested.symm.trans hops
  have hkinds : ∀ o ∈ ([⟨0⟩, ⟨1⟩, ⟨2⟩, ⟨6⟩, ⟨3⟩, ⟨4⟩, ⟨5⟩, ⟨9⟩, ⟨7⟩, ⟨8⟩, ⟨10⟩] : List OpId),
      ∀ x ∈ (branchesGraph.op o).toOption, x.kind ≠ .func := by decide +kernel
  refine ⟨ps.take 18, ps.drop 19, hps.trans (congrArg _ hsplit), ?_⟩
  refine hall (fun p x hp hx => hkinds p ((hmem p).2 hp) x ?_) ⟨0⟩ (hnamed.operands ⟨0⟩ (.head _))
  rw [hx]
  rfl

/-! ## A function inside a function -/

/-- Builds a function inside a function.  The inner one has a gate on its own argument and one on
the argument of the outer one. -/
def buildNest : Except Fault (OpId × Graph) := do
  let (location, g) := empty.nowhere
  let (block, g) := g.newBlock [.qubit] location
  let (inner, g) ← g.newFunc "g" [.qubit] fun args => do
    let _ ← BuildM.gate .hadamard (args.headD default)
    let _ ← BuildM.gate .hadamard ⟨0⟩
    let _ ← BuildM.ret []
  let g ← g.placeLast block inner
  let (last, g) ← g.newOp (.ret location [])
  let g ← g.placeLast block last
  let (region, g) ← g.newRegion [block]
  g.newOp (.func location "f" region)

/-- The graph that `buildNest` builds. -/
def nestGraph : Graph :=
  match buildNest with
  | .ok (_, g) => g
  | .error _ => .empty

theorem buildNest_eq : buildNest = .ok (⟨5⟩, nestGraph) := by decide +kernel

theorem nestGraph_built : nestGraph.Reachable false := by
  have h := buildNest_eq
  simp only [buildNest, bind_eq_ok] at h
  obtain ⟨⟨inner, g₁⟩, hinner, g₂, hplace, ⟨last, g₃⟩, hlast, g₄, hplace', ⟨r, g₅⟩, hregion,
    hop⟩ := h
  have hblock : Reachable false (empty.nowhere.2.newBlock [.qubit] empty.nowhere.1).2 :=
    .move (.move .empty (.intern _)) (.newBlock [.qubit] _ (.inr ⟨rfl, rfl⟩))
  have hfunc : g₁.Reachable false := by
    refine .move hblock (.newFunc (fun _ => ?_) hinner)
    exact .bind (.single _) fun _ => .bind (.single _) fun _ => .bind (.op _) fun _ => .pure ()
  have hfilled : g₄.Reachable false :=
    .move (.move (.move hfunc (.placeLast hplace)) (.newOp hlast)) (.placeLast hplace')
  exact .move (.move hfilled (.newRegion (.inr rfl) hregion)) (.newOp hop)

/-- The argument of the outer function may be referred to in the inner one, and the check finds
nothing.  There both arguments are numbered `0`, and the second gate is written with an unknown
operand. -/
theorem opText_nest : nestGraph.Reachable false ∧
    (∃ d, nestGraph.op ⟨5⟩ = .ok d ∧ d.kind = .func ∧ d.block = none) ∧
    nestGraph.validateScopes ⟨5⟩ = .ok ⟨[], []⟩ ∧ nestGraph.held? ⟨⟨1⟩, 0⟩ = some ⟨0⟩ ∧
    nestGraph.opText ⟨5⟩ = .ok ("func.func @f(%0: qubit) \x7b\n  func.func @g(%0: qubit) \x7b\n" ++
      "    %1 = quantum.h %0 : qubit\n    %2 = quantum.h %? : qubit\n    func.return\n  \x7d\n" ++
      "  func.return\n\x7d\n") := by
  refine ⟨nestGraph_built, ⟨_, rfl, rfl, rfl⟩, ?_, ?_, ?_⟩
  all_goals decide +kernel

end Graph

end Peephole
