import Peephole.Proofs.Ancestry
import Peephole.Proofs.Construction
import Peephole.Proofs.Depth
import Peephole.Proofs.Surroundings

/-!
# Erasing an operation

What is erased is found in two ways.  A session walks what is nested in the operation and
announces it, and the erasure itself goes down region by region, takes every block apart and
goes on from what the block listed.  In a linked graph both come to what is under the
operation, so an erasure takes just what was announced (`Linked.erase_ok`).

Only the results of the operation itself are asked for readers.  A value that is made
further inside has readers inside too if operands are visible where they are read, so
nothing that is left reads what is gone (`Removed.no_dangling`).
-/

namespace Peephole

namespace Graph

variable {g g' : Graph} {root o p e : OpId} {d x : Op} {v : ValueId} {b : BlockId} {B : Block}
  {nested : List OpId} {u : Use}

/-! ## Readers of results -/

theorem Linked.nodup_results (hg : g.Linked) (hd : g.slot o = .ok d) : d.results.Nodup := by
  rw [List.nodup_iff_getElem?_ne_getElem?]
  intro i j hij hj heq
  obtain ⟨v, hv⟩ : ∃ v, d.results[j]? = some v := ⟨_, List.getElem?_eq_getElem hj⟩
  obtain ⟨y, hy, hyi⟩ := hg.result.2 ⟨d, hd, heq.trans hv⟩
  obtain ⟨y', hy', hyj⟩ := hg.result.2 ⟨d, hd, hv⟩
  rw [hy] at hy'
  cases hy'
  rw [hyi] at hyj
  cases hyj
  exact Nat.lt_irrefl i hij

/-- The slots that hold a result of an operation. -/
def resultUses (g : Graph) (d : Op) : List Use := d.results.flatMap g.uses

theorem Coherent.mem_resultUses (hg : g.Coherent) :
    u ∈ g.resultUses d ↔ ∃ v ∈ d.results, g.held? u = some v := by
  simp only [resultUses, List.mem_flatMap, hg.mem_uses]

theorem Coherent.nodup_resultUses (hg : g.Coherent) (hlinked : g.Linked) (hd : g.slot o = .ok d) :
    (g.resultUses d).Nodup := by
  rw [resultUses, List.nodup_flatMap]
  refine ⟨fun v _ => hg.nodup_uses v, (hlinked.nodup_results hd).imp ?_⟩
  intro v w hvw u hv hw
  exact hvw (Option.some.inj ((hg.mem_uses.1 hv).symm.trans (hg.mem_uses.1 hw)))

/-! ## What an erasure takes -/

/-- `g'` is `g` without the operation `o` and what is nested in it. -/
structure Removed (g : Graph) (o : OpId) (d : Op) (nested : List OpId) (g' : Graph) : Prop where
  /-- The operation and what is nested in it are marked as erased. -/
  slot (p : OpId) : g'.slot p = if p = o ∨ p ∈ nested then
    (g.slot p).map fun x => { x with block := none, erased := true } else g.slot p
  /-- The block that listed the operation no longer does. -/
  home {b : BlockId} {B : Block} : d.block = some b → g.block b = .ok B →
    g'.block b = .ok { B with ops := B.ops.filter (· ≠ o) }
  /-- The blocks inside are left empty. -/
  inner {b : BlockId} {B : Block} : g.Encloses o b → g.block b = .ok B →
    g'.block b = .ok { B with ops := [] }
  /-- No other block changes. -/
  block {b : BlockId} : d.block ≠ some b → ¬g.Encloses o b → g'.block b = g.block b
  /-- The slots of the erased operations leave the use lists. -/
  uses (v : ValueId) : g'.uses v = (g.uses v).filter fun u => ¬(u.user = o ∨ u.user ∈ nested)
  /-- Nothing else changes. -/
  rest : g' = { g with ops := g'.ops, blocks := g'.blocks, useLists := g'.useLists }

/-- In a linked graph an operation has the blocks whose region it owns. -/
theorem Linked.hasBlock_iff (hg : g.Linked) : g.HasBlock p b ↔
    ∃ r R B, g.region r = .ok R ∧ R.owner = some p ∧ g.block b = .ok B ∧ B.region = some r := by
  constructor
  · rintro ⟨x, r, R, hx, hr, hR, hb⟩
    obtain ⟨R', hR', howner⟩ := hg.owned.2 ⟨x, hx, hr⟩
    rw [hR] at hR'
    cases hR'
    obtain ⟨B, hB, hBr⟩ := hg.parted.2 ⟨R, hR, hb⟩
    exact ⟨r, R, B, hR, howner, hB, hBr⟩
  · rintro ⟨r, R, B, hR, howner, hB, hBr⟩
    obtain ⟨x, hx, hr⟩ := hg.owned.1 ⟨R, hR, howner⟩
    obtain ⟨R', hR', hb⟩ := hg.parted.1 ⟨B, hB, hBr⟩
    rw [hR] at hR'
    cases hR'
    exact ⟨x, r, R, hx, hr, hR, hb⟩

/-- The blocks that an erasure empties are those that the operation encloses. -/
theorem Linked.mem_inner (hg : g.Linked) {home : Option BlockId} {os : List OpId}
    {bs : List BlockId} (he : g.Dismantled o home os bs g')
    (hos : ∀ p, p ∈ os ↔ p = o ∨ g.Inside o p) : b ∈ bs ↔ g.Encloses o b := by
  have hunder : ∀ p, p ∈ os ↔ ∃ n, Within g o n p := by
    intro p
    rw [hos]
    constructor
    · rintro (rfl | ⟨n, hn⟩)
      · exact ⟨0, .root⟩
      · exact ⟨n + 1, hn⟩
    · rintro ⟨_ | n, hn⟩
      · cases hn
        exact .inl rfl
      · exact .inr ⟨n, hn⟩
  rw [he.inner]
  constructor
  · rintro ⟨p, hp, hb⟩
    obtain ⟨n, hn⟩ := (hunder p).1 hp
    obtain ⟨r, R, B, howned⟩ := hg.hasBlock_iff.1 hb
    exact ⟨n, p, r, R, B, hn, howned⟩
  · rintro ⟨n, p, r, R, B, hn, howned⟩
    exact ⟨p, (hunder p).2 ⟨n, hn⟩, hg.hasBlock_iff.2 ⟨r, R, B, howned⟩⟩

/-- An operation that is not nested in itself and whose results nobody reads can be erased,
and just what is under it goes. -/
theorem Linked.erase_ok (hg : g.Linked) (hc : g.Coherent) (hd : g.op o = .ok d)
    (ho : ¬g.Inside o o) (hfree : ∀ v ∈ d.results, g.uses v = []) :
    ∃ nested g', g.nestedOps o = .ok nested ∧ (nested ++ [o]).Nodup ∧
      (∀ p, p ∈ nested ↔ g.Inside o p) ∧ g.erase o = .ok g' ∧ g.Removed o d nested g' := by
  obtain ⟨nested, hnested, -, hnodup, hinside⟩ := hg.housed.walk_ok hd ho
  obtain ⟨g', hg'⟩ := hg.complete.erase_ok hd hfree
  obtain ⟨d', os, bs, hd', -, he⟩ := dismantled_of_erase hg'
  rw [hd] at hd'
  cases hd'
  -- the walk and the erasure come to the same operations
  have hos : ∀ p, p ∈ os ↔ p = o ∨ p ∈ nested := fun p => he.mem_iff hnested
  have hmem : ∀ b, b ∈ bs ↔ g.Encloses o b :=
    fun b => hg.mem_inner he fun p => (hos p).trans (or_congr Iff.rfl (hinside p))
  refine ⟨nested, g', hnested, ?_, hinside, hg', ?_⟩
  · exact (List.perm_append_singleton o nested).nodup_iff.2 hnodup
  · refine ⟨fun p => by simp only [he.slot, hos], ?_, ?_, ?_, ?_, he.rest⟩
    · -- the block that lists the operation is not one of those inside
      intro b B hb hB
      have hout : b ∉ bs := fun hin => ho (((hmem b).1 hin).inside hd hb)
      rw [he.block, if_neg hout, if_pos hb, hB, map_ok]
    · intro b B hb hB
      rw [he.block, if_pos ((hmem b).2 hb), hB, map_ok]
    · intro b hb henc
      rw [he.block, if_neg (mt (hmem b).1 henc), if_neg hb]
    · intro v
      rw [he.uses]
      apply List.filter_congr
      intro u hu
      rw [written?_of_held? (hc.mem_uses.1 hu)]
      simp [hos]

/-! ## Operands that passed the check -/

/-- A value that the search finds is visible. -/
theorem Linked.visible_of_inScopeTo (hg : g.Linked) :
    ∀ {k : Nat} {o : OpId}, g.inScopeTo v k o = .ok true → g.Visible v o
  | k + 1, o, h => by
      rw [inScopeTo, bind_eq_ok] at h
      obtain ⟨d, hd, h⟩ := h
      split at h
      · cases h
      rename_i b hb
      obtain ⟨level, hlevel, h⟩ := bind_eq_ok.1 h
      obtain ⟨B, hB, ho⟩ := hg.placed.1 ⟨d, hd, hb⟩
      cases level with
      | above =>
        obtain ⟨owner, howner, h⟩ := bind_eq_ok.1 h
        cases owner with
        | none => cases h
        | some p => exact .outer howner (hg.visible_of_inScopeTo h)
      | here answer =>
        cases h
        obtain ⟨origin, horigin, -⟩ := bind_eq_ok.1 hlevel
        obtain ⟨y, hy, rfl⟩ :=
          map_eq_ok.1 (show (g.value v).map Value.origin = .ok origin from horigin)
        cases hyo : y.origin with
        | argument c i =>
          rw [levelOf_argument o b hy hyo] at hlevel
          split at hlevel
          · rename_i hcb
            subst hcb
            obtain ⟨B', hB', hv⟩ := hg.argument.1 ⟨y, hy, hyo⟩
            rw [hB] at hB'
            cases hB'
            exact .argument hB ho (List.mem_of_getElem? hv)
          · cases hlevel
        | result p i =>
          obtain ⟨x, hx, hv⟩ := hg.result.1 ⟨y, hy, hyo⟩
          obtain ⟨answer, hanswer, hlevel'⟩ := levelOf_result hg hy hyo hx hd hb hB
          rw [hlevel] at hlevel'
          split at hlevel'
          · rename_i hin
            cases hlevel'
            exact .earlier (hanswer.1 rfl) (op_eq_ok.2 ⟨hx, hin.1⟩) (List.mem_of_getElem? hv)
          · cases hlevel'

theorem Linked.visible_of_checkOperands (hg : g.Linked) :
    ∀ {vs : List ValueId} {i : Nat}, g.checkOperands o i vs = .ok [] → ∀ v ∈ vs, g.Visible v o
  | w :: vs, i, h, v, hv => by
      rw [checkOperands, bind_eq_ok] at h
      obtain ⟨found, hfound, h⟩ := h
      obtain ⟨others, hothers, h⟩ := bind_eq_ok.1 h
      obtain ⟨hnone, rfl⟩ := List.append_eq_nil_iff.1 (Except.ok.inj h)
      rcases List.mem_cons.1 hv with rfl | hv
      · rw [checkOperand, bind_eq_ok] at hfound
        obtain ⟨answer, hanswer, hfound⟩ := hfound
        cases answer with
        | true => exact hg.visible_of_inScopeTo hanswer
        | false =>
          obtain ⟨text, -, hfound⟩ := bind_eq_ok.1 hfound
          cases hfound
          cases hnone
      · exact hg.visible_of_checkOperands hothers v hv

/-- Where the first check finds nothing under a root without an owner, operands are visible where
they are read. -/
theorem Linked.visible_of_unavailableOperands (hg : g.Linked) (hroot : g.ownerOf? root = .ok none)
    (h : g.unavailableOperands root = .ok []) (hheld : g.held? u = some v)
    (hu : g.Inside root u.user) : g.Visible v u.user := by
  obtain ⟨d, hd⟩ := op_of_ownerOf? hroot
  obtain ⟨nested, hnested, -, -, hinside⟩ := hg.housed.walk_ok hd (not_inside_of_no_owner hroot)
  rw [unavailableOperands_eq hnested] at h
  obtain ⟨all, hall, hnil⟩ := map_eq_ok.1 h
  obtain ⟨one, hone, hcheck⟩ := (mem_of_mapM hall).2 u.user ((hinside u.user).2 hu)
  have hnone : one = [] := List.flatten_eq_nil_iff.1 hnil one hone
  subst hnone
  obtain ⟨vs, hvs, hcheck⟩ := bind_eq_ok.1 hcheck
  obtain ⟨x, hx, hv⟩ := held?_eq_some.1 hheld
  rw [operands, hx] at hvs
  cases hvs
  exact hg.visible_of_checkOperands hcheck v (List.mem_of_getElem? hv)

/-- Under a root without an owner that passed the checks, operands are visible where they
are read. -/
theorem Linked.visible_of_validate {report : Report} (hg : g.Linked)
    (hroot : g.ownerOf? root = .ok none) (h : g.validate root = .ok report)
    (hok : report.isOk = true) (hheld : g.held? u = some v) (hu : g.Inside root u.user) :
    g.Visible v u.user := by
  rw [validate, bind_eq_ok] at h
  obtain ⟨found, hfound, h⟩ := h
  obtain ⟨errors, -, h⟩ := bind_eq_ok.1 h
  cases h
  obtain rfl : found = [] := (Report.isOk_iff.1 hok).1
  exact hg.visible_of_unavailableOperands hroot hfound hheld hu

/-! ## Nothing is left dangling -/

/-- Of two operations above the same one, the nearer is under the farther. -/
theorem Within.between {n m : Nat} (h : Within g root n o) (h' : Within g e m o) (hle : m ≤ n) :
    Within g root (n - m) e := by
  induction h' generalizing n with
  | root => exact h
  | step howner _ ih =>
    cases h with
    | root => cases hle
    | step howner' h =>
      rw [howner] at howner'
      cases howner'
      rw [Nat.succ_sub_succ]
      exact ih h (Nat.le_of_succ_le_succ hle)

/-- Above an operation under a root without an owner there are live operations only. -/
theorem Inside.live_above (hroot : g.ownerOf? root = .ok none) (h : g.Inside root o)
    (he : g.Inside e o) : ∃ x, g.op e = .ok x := by
  obtain ⟨n, hn⟩ := h
  obtain ⟨m, hm⟩ := he
  obtain ⟨d, hd⟩ := op_of_ownerOf? hroot
  rcases Nat.le_total (m + 1) (n + 1) with hle | hle
  · exact (hn.between hm hle).live hd
  · -- the root is under nothing, so it is the operation itself
    have hup := hm.between hn hle
    cases hk : m + 1 - (n + 1) with
    | zero =>
      rw [hk] at hup
      cases hup
      exact ⟨d, hd⟩
    | succ k => exact absurd ⟨k, hk ▸ hup⟩ (not_inside_of_no_owner hroot)

/-- After an erasure under a root where operands are visible, what is left under the root
reads nothing that an erased operation makes, or a block inside one. -/
theorem Removed.no_dangling (h : g.Removed o d nested g') (hg : g.Linked) (hc : g.Coherent)
    (hd : g.op o = .ok d) (hfree : ∀ v ∈ d.results, g.uses v = [])
    (hnested : ∀ p, p ∈ nested ↔ g.Inside o p) (herase : g.erase o = .ok g')
    (hroot : g.ownerOf? root = .ok none)
    (hvisible : ∀ {u v}, g.held? u = some v → g.Inside root u.user → g.Visible v u.user)
    (hheld : g'.held? u = some v) (hu : g'.Inside root u.user) :
    (∀ {p x}, g'.slot p = .ok x → v ∈ x.results → x.erased = false) ∧
    ∀ {p x b B}, g'.slot p = .ok x → x.erased = true → g.Encloses p b → g.block b = .ok B →
      v ∉ B.args := by
  rw [held?_erased h.slot] at hheld
  split at hheld
  · cases hheld
  rename_i hleft
  obtain ⟨y, hy, -⟩ := held?_eq_some.1 hheld
  have hin : g.Inside root u.user := by
    obtain ⟨n, hn⟩ := hu
    exact ⟨n, (reshaped_of_erase herase).within hg hn (slot_of_op hy)⟩
  have hout : ¬g.Inside o u.user := fun hin => hleft (.inr ((hnested _).2 hin))
  have hseen : g.Visible v u.user := hvisible hheld hin
  constructor
  · intro p x hx hv
    rw [h.slot] at hx
    split at hx
    · rename_i hp
      obtain ⟨x₀, hx₀, rfl⟩ := map_eq_ok.1 hx
      rcases hp with rfl | hp
      · -- its own results have no readers
        rw [slot_of_op hd] at hx₀
        cases hx₀
        have hread : u ∈ g.uses v := hc.mem_uses.2 hheld
        rw [hfree v hv] at hread
        cases hread
      · exact absurd (hseen.inside_of_result hg hx₀ hv ((hnested p).1 hp)) hout
    · exact (op_eq_ok.1 (hseen.definer hg hx hv)).2
  · intro p x b B hx he hb hB hv
    have hunder : g.Inside p u.user := hseen.inside_of_argument hg hB hv hb
    rw [h.slot] at hx
    split at hx
    · rename_i hp
      rcases hp with rfl | hp
      · exact hout hunder
      · obtain ⟨n, hn⟩ := (hnested p).1 hp
        obtain ⟨m, hm⟩ := hunder
        exact hout ⟨n + 1 + m, hn.trans hm⟩
    · obtain ⟨x', hx'⟩ := hin.live_above hroot hunder
      obtain ⟨hs, hlive⟩ := op_eq_ok.1 hx'
      rw [hx] at hs
      cases hs
      rw [he] at hlive
      cases hlive

end Graph

/-! ## Erasing in a session -/

/-- A recorder writes down what it is told, the last first. -/
theorem Observer.announced_recorder {g : Graph} :
    ∀ {ops : List OpId} {told events : List Event},
      ops.mapM (fun p => Event.ofNotice g (.erasing p)) = .ok told →
      ops.foldlM (fun observer p => observer.notify g (.erasing p)) (Observer.recorder events) =
        .ok (.recorder (told.reverse ++ events))
  | [], told, events, h => by
      cases h
      rfl
  | p :: ops, told, events, h => by
      obtain ⟨event, told', hevent, htold, rfl⟩ := mapM_cons_eq_ok.1 h
      have hfirst : (Observer.recorder events).notify g (.erasing p) =
          .ok (.recorder (event :: events)) := by
        rw [notify, hevent]
        rfl
      rw [List.foldlM_cons, hfirst, ok_bind, announced_recorder htold, List.reverse_cons,
        List.append_assoc]
      rfl

namespace EditM

open Peephole.Graph

variable {s : Session} {o : OpId} {d : Op} {events : List Event}

/-- How the erasure of an operation that is not nested in itself runs when a recorder is
told: it fails if a result is read, and otherwise takes what is under the operation. -/
theorem runOn_erase_recorded (hg : s.graph.Linked) (hc : s.graph.Coherent)
    (hobserver : s.observer = .recorder events) (hd : s.graph.op o = .ok d)
    (ho : ¬s.graph.Inside o o) (hfree : s.graph.resultUses d = []) :
    ∃ nested told g, s.graph.nestedOps o = .ok nested ∧ (nested ++ [o]).Nodup ∧
      (∀ p, p ∈ nested ↔ s.graph.Inside o p) ∧
      (nested ++ [o]).mapM (fun p => Event.ofNotice s.graph (.erasing p)) = .ok told ∧
      s.graph.erase o = .ok g ∧ s.graph.Removed o d nested g ∧
      (erase o).runOn s = .ok (.ok (), { s with
        graph := g, observer := .recorder (told.reverse ++ events), mutated := true }) := by
  have hunread : ∀ v ∈ d.results, s.graph.uses v = [] := List.flatMap_eq_nil_iff.1 hfree
  obtain ⟨nested, g, hnested, hnodup, hinside, herase, hremoved⟩ :=
    hg.erase_ok hc hd ho hunread
  have hevents : ∀ p ∈ nested ++ [o], ∃ event, Event.ofNotice s.graph (.erasing p) = .ok event := by
    intro p hp
    obtain ⟨x, hx⟩ : ∃ x, s.graph.op p = .ok x := by
      rcases List.mem_append.1 hp with hp | hp
      · exact ((hinside p).1 hp).live
      · obtain rfl := List.mem_singleton.1 hp
        exact ⟨d, hd⟩
    exact ⟨.erasing p x.operands, by rw [Event.ofNotice, operands, hx]; rfl⟩
  obtain ⟨told, htold⟩ := mapM_ok hevents
  have htotal : s.graph.totalUses o = .ok 0 := by
    rw [totalUses, results, hd]
    exact congrArg (fun l : List Use => Except.ok l.length) hfree
  refine ⟨nested, told, g, hnested, hnodup, hinside, htold, herase, hremoved, ?_⟩
  refine runOn_erase.2 ⟨d, 0, hd, htotal, .inr ⟨rfl, nested, _, g, hnested, ?_, herase, rfl, rfl⟩⟩
  rw [hobserver]
  exact Observer.announced_recorder htold

/-- An erasure fails if live operations read a result, in as many slots as it says, and then
nothing has happened.  Otherwise it announces the operation and what is nested in it, each
once and while they can still be looked at, and takes just these.  Under every root without
an owner that passed the checks nothing is left that reads what is gone. -/
theorem erase_exact (hg : s.graph.Reachable false) (hobserver : s.observer = .recorder events)
    (hd : s.graph.op o = .ok d) (ho : s.graph.Anchored o) :
    ∃ reads : List Use, reads.Nodup ∧
      (∀ u, u ∈ reads ↔ ∃ v ∈ d.results, s.graph.held? u = some v) ∧
      (reads ≠ [] → (erase o).runOn s = .ok (.error (.stillRead o d.kind reads.length), s)) ∧
      (reads = [] → ∃ nested told g, s.graph.nestedOps o = .ok nested ∧ (nested ++ [o]).Nodup ∧
        (nested ++ [o]).mapM (fun p => Event.ofNotice s.graph (.erasing p)) = .ok told ∧
        (erase o).runOn s = .ok (.ok (), { s with
          graph := g, observer := .recorder (told.reverse ++ events), mutated := true }) ∧
        s.graph.Removed o d nested g ∧
        ∀ {root report}, s.graph.ownerOf? root = .ok none →
          s.graph.validate root = .ok report → report.isOk = true →
          ∀ {u v}, g.held? u = some v → g.Inside root u.user →
            (∀ {p x}, g.slot p = .ok x → v ∈ x.results → x.erased = false) ∧
            ∀ {p x b B}, g.slot p = .ok x → x.erased = true → s.graph.Encloses p b →
              s.graph.block b = .ok B → v ∉ B.args) := by
  refine ⟨s.graph.resultUses d, hg.coherent.nodup_resultUses hg.linked (slot_of_op hd),
    fun u => hg.coherent.mem_resultUses, ?_, ?_⟩
  · intro hread
    have htotal : s.graph.totalUses o = .ok (s.graph.resultUses d).length := by
      rw [totalUses, results, hd]
      rfl
    exact runOn_erase.2 ⟨d, _, hd, htotal, .inl ⟨List.length_pos_iff.2 hread, rfl, rfl⟩⟩
  · intro hfree
    obtain ⟨nested, told, g, hnested, hnodup, hinside, htold, herase, hremoved, hrun⟩ :=
      runOn_erase_recorded hg.linked hg.coherent hobserver hd ho.not_inside hfree
    refine ⟨nested, told, g, hnested, hnodup, htold, hrun, hremoved, ?_⟩
    intro root report hroot hvalidate hok u v hheld hu
    exact hremoved.no_dangling hg.linked hg.coherent hd (List.flatMap_eq_nil_iff.1 hfree) hinside
      herase hroot (fun hheld hu => hg.linked.visible_of_validate hroot hvalidate hok hheld hu)
      hheld hu

/-- Of two branches the second one is read once.  The first one is not read.  It goes with the
gate and the yield in it, which are announced before it, and what is left reads what it did. -/
theorem erase_exact_choice :
    (erase ⟨6⟩).runOn ⟨choiceGraph, .recorder [], false, false⟩ =
      .ok (.error (.stillRead ⟨6⟩ .branch 1), ⟨choiceGraph, .recorder [], false, false⟩) ∧
    ∃ g d, choiceGraph.op ⟨3⟩ = .ok d ∧ choiceGraph.Removed ⟨3⟩ d [⟨1⟩, ⟨2⟩] g ∧
      (erase ⟨3⟩).runOn ⟨choiceGraph, .recorder [], false, false⟩ =
        .ok (.ok (), ⟨g, .recorder [.erasing ⟨3⟩ [⟨1⟩], .erasing ⟨2⟩ [⟨2⟩], .erasing ⟨1⟩ [⟨0⟩]],
          true, false⟩) ∧
      ∀ {u v}, g.held? u = some v → g.Inside ⟨8⟩ u.user →
        ∀ {p x}, g.slot p = .ok x → v ∈ x.results → x.erased = false := by
  have hfunction := choiceGraph_function
  have hg := hfunction.built
  have hroot : choiceGraph.ownerOf? ⟨8⟩ = .ok none := rfl
  have hfirst : Within choiceGraph ⟨8⟩ 1 ⟨3⟩ := .step rfl .root
  have hsecond : Within choiceGraph ⟨8⟩ 1 ⟨6⟩ := .step rfl .root
  have hanchored : choiceGraph.Anchored ⟨8⟩ := .of_no_owner hroot
  constructor
  · obtain ⟨reads, hnodup, hreads, herror, -⟩ := erase_exact hg
      (s := ⟨choiceGraph, .recorder [], false, false⟩) rfl (o := ⟨6⟩) rfl
      (hanchored.within hsecond)
    have hone : reads = [⟨⟨7⟩, 0⟩] := by
      rw [← List.perm_singleton, List.perm_ext_iff_of_nodup hnodup (List.nodup_singleton _)]
      intro u
      have huses : choiceGraph.uses ⟨5⟩ = [⟨⟨7⟩, 0⟩] := rfl
      have hresults : ∀ v, v ∈ choiceGraph.ops[6].results ↔ v = ⟨5⟩ := fun v => List.mem_singleton
      rw [hreads, ← huses, hg.coherent.mem_uses]
      simp [hresults]
    rw [hone] at herror
    exact herror (by decide)
  · obtain ⟨reads, hnodup, hreads, -, hok⟩ := erase_exact hg
      (s := ⟨choiceGraph, .recorder [], false, false⟩) rfl (o := ⟨3⟩) rfl
      (hanchored.within hfirst)
    have hnone : reads = [] := by
      rw [List.eq_nil_iff_forall_not_mem]
      intro u hu
      obtain ⟨v, hv, hheld⟩ := (hreads u).1 hu
      obtain rfl : v = ⟨3⟩ := List.mem_singleton.1 hv
      have huses : choiceGraph.uses ⟨3⟩ = [] := rfl
      exact List.not_mem_nil (huses ▸ hg.coherent.mem_uses.2 hheld)
    obtain ⟨nested, told, g, hnested, -, htold, hrun, hremoved, hclean⟩ := hok hnone
    have hops : choiceGraph.nestedOps ⟨3⟩ = .ok [⟨1⟩, ⟨2⟩] := by decide +kernel
    obtain rfl : _ = nested := Except.ok.inj (hops.symm.trans hnested)
    cases htold
    obtain ⟨report, hvalidate, hisOk⟩ := hfunction.checked
    refine ⟨g, _, rfl, hremoved, hrun, ?_⟩
    intro u v hheld hu
    exact (hclean hroot hvalidate hisOk hheld hu).1

end EditM

end Peephole
