import Peephole.Proofs.Preservation
import Peephole.Proofs.Programs

/-!
# Ancestry

The owners above an operation.  `Graph.Anchored g o` says that the chain of owners from `o`
upwards ends.  Then `o` is not nested in itself, and neither is what is nested in `o`.

Edits that insert only operations without regions put leaves in and take whole subtrees out.
They never move an operation, and nothing comes to own what it did not own before
(`Graph.Reshaped`).  So no edit ties a knot: what is anchored stays anchored, and what is
nested in itself after some edits was so before them.
-/

namespace Peephole

namespace Graph

variable {g g' g'' : Graph} {root o p : OpId} {d : Op} {n : Nat}

/-! ## Chains of owners -/

/-- The chain of owners from an operation upwards ends. -/
def Anchored (g : Graph) (o : OpId) : Prop := Acc (fun p o => g.ownerOf? o = .ok (some p)) o

/-- An operation that owns another one has an entry.  It may have been erased. -/
theorem Linked.slot_of_owner (hg : g.Linked) (h : g.ownerOf? o = .ok (some p)) :
    ∃ d, g.slot p = .ok d := by
  obtain ⟨r, R, -, hR, howner⟩ := ownerOf?_eq_some.1 h
  obtain ⟨d, hd, -⟩ := hg.owned.1 ⟨R, hR, howner⟩
  exact ⟨d, hd⟩

/-- The root of what is nested owns something. -/
theorem Inside.owns (h : g.Inside root o) : ∃ q, g.ownerOf? q = .ok (some root) := by
  obtain ⟨n, hn⟩ := h
  induction n generalizing o with
  | zero =>
    cases hn with
    | step howner hn =>
      cases hn
      exact ⟨o, howner⟩
  | succ n ih =>
    cases hn with
    | step _ hn => exact ih hn

namespace Anchored

theorem of_no_owner (h : g.ownerOf? o = .ok none) : g.Anchored o := by
  refine ⟨o, fun p hp => ?_⟩
  rw [h] at hp
  cases hp

theorem not_inside (h : g.Anchored o) : ¬g.Inside o o := by
  induction h with
  | intro o _ ih =>
    rintro ⟨n, hn⟩
    cases hn with
    | step howner hn =>
      -- the owner would be nested in itself too
      have howns := (Within.step howner .root).trans hn
      exact ih _ howner ⟨n, by simpa [Nat.add_comm] using howns⟩

theorem within (h : g.Anchored root) (ho : Within g root n o) : g.Anchored o := by
  induction ho with
  | root => exact h
  | step howner _ ih =>
    refine ⟨_, fun q hq => ?_⟩
    rw [howner] at hq
    cases hq
    exact ih

/-- Above a live operation there is a highest live one. -/
theorem top (h : g.Anchored o) (hd : g.op o = .ok d) :
    ∃ n top x, Within g top n o ∧ g.op top = .ok x ∧ g.Anchored top ∧
      ∀ p, g.ownerOf? top = .ok (some p) → ∀ y, g.op p ≠ .ok y := by
  induction h generalizing d with
  | intro o hup ih =>
    by_cases hlive : ∃ p y, g.ownerOf? o = .ok (some p) ∧ g.op p = .ok y
    · obtain ⟨p, y, howner, hy⟩ := hlive
      obtain ⟨n, top, x, hn, hx, htop⟩ := ih p howner hy
      exact ⟨n + 1, top, x, .step howner hn, hx, htop⟩
    · exact ⟨0, o, d, .root, hd, ⟨o, hup⟩, fun p howner y hy => hlive ⟨p, y, howner, hy⟩⟩

end Anchored

/-! ## What edits do to nesting -/

/-- Operations keep their entries and their kinds.  Those that are left are where they were, and
those that own something did so before. -/
structure Reshaped (g g' : Graph) : Prop where
  slot {o : OpId} {d : Op} : g.slot o = .ok d → ∃ d', g'.slot o = .ok d' ∧ d'.kind = d.kind
  place {o p : OpId} {d : Op} : g.slot o = .ok d → g'.ownerOf? o = .ok (some p) →
    g.ownerOf? o = .ok (some p)
  owner {o p : OpId} : g'.ownerOf? o = .ok (some p) → ∃ q, g.ownerOf? q = .ok (some p)

namespace Reshaped

theorem refl (g : Graph) : Reshaped g g where
  slot h := ⟨_, h, rfl⟩
  place _ h := h
  owner h := ⟨_, h⟩

theorem trans (h : Reshaped g g') (h' : Reshaped g' g'') : Reshaped g g'' where
  slot hd := by
    obtain ⟨d', hd', hk⟩ := h.slot hd
    obtain ⟨d'', hd'', hk'⟩ := h'.slot hd'
    exact ⟨d'', hd'', hk'.trans hk⟩
  place hd howner := by
    obtain ⟨d', hd', -⟩ := h.slot hd
    exact h.place hd (h'.place hd' howner)
  owner howner := by
    obtain ⟨q, hq⟩ := h'.owner howner
    exact h.owner hq

theorem slot_of_owner (h : Reshaped g g') (hg : g.Linked) (howner : g'.ownerOf? o = .ok (some p)) :
    ∃ d, g.slot p = .ok d := by
  obtain ⟨q, hq⟩ := h.owner howner
  exact hg.slot_of_owner hq

theorem within (h : Reshaped g g') (hg : g.Linked) (ho : Within g' root n o)
    (hd : g.slot o = .ok d) : Within g root n o := by
  induction ho generalizing d with
  | root => exact .root
  | step howner _ ih =>
    obtain ⟨x, hx⟩ := h.slot_of_owner hg howner
    exact .step (h.place hd howner) (ih hx)

theorem anchored (h : Reshaped g g') (hg : g.Linked) (ho : g.Anchored o)
    (hd : g.slot o = .ok d) : g'.Anchored o := by
  induction ho generalizing d with
  | intro o _ ih =>
    refine ⟨_, fun p howner => ?_⟩
    obtain ⟨x, hx⟩ := h.slot_of_owner hg howner
    exact ih p (h.place hd howner) hx

/-- What is nested in itself was so before. -/
theorem inside_self (h : Reshaped g g') (hg : g.Linked) (ho : g'.Inside o o) : g.Inside o o := by
  obtain ⟨q, hq⟩ := ho.owns
  obtain ⟨d, hd⟩ := h.slot_of_owner hg hq
  obtain ⟨n, hn⟩ := ho
  exact ⟨n, h.within hg hn hd⟩

end Reshaped

theorem Rewired.reshaped (h : Rewired g g') : Reshaped g g' where
  slot hd := by
    obtain ⟨d', hd', hu⟩ := h.slot_ok hd
    exact ⟨d', hd', Op.kind_of_unread hu⟩
  place _ howner := h.symm.ownerOf? howner
  owner howner := ⟨_, h.symm.ownerOf? howner⟩

/-- An operation without regions is put in as a leaf. -/
theorem reshaped_of_insert {g₁ : Graph} {a : OpId} {x : Draft} (hg : g.Linked)
    (hregions : x.regions = []) (hnew : g.newOp x = .ok (o, g₁))
    (hplace : g₁.placeBefore a o = .ok g') : Reshaped g g' := by
  have hins := inserted_of_ok hg hregions hnew hplace
  have hne : ∀ {p d}, g.slot p = .ok d → p ≠ o := by
    rintro p d hd rfl
    exact not_slot_of_newOp hnew d hd
  refine ⟨?slot, ?place, ?owner⟩
  case slot =>
    intro p d hd
    obtain ⟨_, _, b, _, i, -, -, -, -, -, -, rfl⟩ := placeBefore_eq_ok.1 hplace
    refine ⟨d, ?_, rfl⟩
    rw [slot_put, if_neg (hne hd).symm, slot_newOp hnew, if_neg (hne hd), hd]
  case place =>
    intro p q d hd howner
    exact (hins.trimmed.ownerOf? (hne hd)).trans howner
  case owner =>
    intro p q howner
    by_cases hp : p = o
    · -- the new operation has the owner of the one that it stands before
      subst hp
      have hsame := hins.linked.ownerOf?_of_precedes hins.before
      have ha : a ≠ p := by
        rintro rfl
        obtain ⟨b, B, hB, hs⟩ := hins.before
        exact absurd (hs.nodup (hins.linked.nodupOps hB)) (by simp)
      exact ⟨a, (hins.trimmed.ownerOf? ha).trans (hsame.symm.trans howner)⟩
    · exact ⟨p, (hins.trimmed.ownerOf? hp).trans howner⟩

/-- What is left after an erasure is where it was. -/
theorem Dismantled.ownerOf? {home : Option BlockId} {os : List OpId} {bs : List BlockId}
    (he : g.Dismantled o home os bs g') (h : g'.ownerOf? p = .ok (some root)) :
    g.ownerOf? p = .ok (some root) := by
  obtain ⟨r, R, hr, hR, howner⟩ := ownerOf?_eq_some.1 h
  obtain ⟨d, b, B, hd, hb, hB, hBr⟩ := regionOf?_eq_some.1 hr
  obtain ⟨B', hB', hBr'⟩ : ∃ B', g.block b = .ok B' ∧ B'.region = some r :=
    (he.exists_block fun _ _ => Iff.rfl).1 ⟨B, hB, hBr⟩
  rw [he.region] at hR
  refine ownerOf?_eq_some.2 ⟨r, R, regionOf?_eq_some.2 ?_, hR, howner⟩
  exact ⟨d, b, B', (he.op_iff.1 hd).2, hb, hB', hBr'⟩

theorem reshaped_of_erase (h : g.erase o = .ok g') : Reshaped g g' := by
  obtain ⟨d, os, bs, -, -, he⟩ := dismantled_of_erase h
  refine ⟨fun {p x} hx => ?_, fun _ => he.ownerOf?, fun h => ⟨_, he.ownerOf? h⟩⟩
  exact (he.exists_slot fun _ => Iff.rfl).2 ⟨x, hx, rfl⟩

end Graph

/-- What is to be made owns no regions. -/
def Draft.Flat (d : Draft) : Prop := d.regions = []

theorem Session.Step.reshaped {s t : Session} (h : s.Step Draft.Flat t) (hs : s.graph.Linked) :
    s.graph.Reshaped t.graph := by
  cases h with
  | insert hflat hnew hplace _ => exact Graph.reshaped_of_insert hs hflat hnew hplace
  | write _ hw => exact (Graph.Rewired.writeSlot hw).reshaped
  | redirect hr _ => exact (Graph.Rewired.redirectUses hr).reshaped
  | erase _ _ he => exact Graph.reshaped_of_erase he
  | updated _ | stop => exact .refl _

/-- One can come from the first graph to the second by edits of sessions. -/
def Graph.Edited (allowed : Draft → Prop) : Graph → Graph → Prop :=
  Relation.ReflTransGen fun g g' => ∃ s t : Session, s.graph = g ∧ t.graph = g' ∧ s.Step allowed t

section Edited

variable {allowed : Draft → Prop} {g g' : Graph} {s t : Session}

theorem Session.Steps.edited (h : s.Steps allowed t) : s.graph.Edited allowed t.graph :=
  Relation.ReflTransGen.lift Session.graph (fun s t hstep => ⟨s, t, rfl, rfl, hstep⟩) s t h

theorem Graph.Edited.linked (h : g.Edited allowed g') (hg : g.Linked) : g'.Linked := by
  induction h with
  | refl => exact hg
  | tail _ hstep ih =>
    obtain ⟨s, t, rfl, rfl, hstep⟩ := hstep
    exact linked_invariant.toKept.steps (.single hstep) ih

theorem Graph.Edited.reshaped (h : g.Edited Draft.Flat g') (hg : g.Linked) : g.Reshaped g' := by
  induction h with
  | refl => exact .refl g
  | tail hsteps hstep ih =>
    have hlinked := Edited.linked hsteps hg
    obtain ⟨s, t, rfl, rfl, hstep⟩ := hstep
    exact ih.trans (hstep.reshaped hlinked)

end Edited

end Peephole
