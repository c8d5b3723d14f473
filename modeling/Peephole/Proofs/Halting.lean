import Peephole.Proofs.Ancestry
import Peephole.Proofs.Depth

/-!
# Computations that end

Walks down and searches upwards are given a depth, and a fault says that they went deeper, so
that they would go on for ever.  `Halts x` says that a computation does not end in this fault.
It may end in any other.

Questions about single entries halt on every graph.  A walk halts from an operation that is
not nested in itself, and a search from an operation that is anchored.  An erasure goes down in
its own way and halts in every linked graph.  A session walks what it is going to erase first,
so there an erasure halts where this walk does.  All other edits halt.
-/

namespace Peephole

/-- The computation does not go on for ever. -/
def Halts {α : Type} (x : Except Fault α) : Prop := x ≠ .error .endless

section Calculus

variable {α β σ : Type}

@[simp]
theorem halts_ok (a : α) : Halts (.ok a) := nofun

@[simp]
theorem halts_error (e : Fault) : Halts (.error e : Except Fault α) ↔ e ≠ .endless := by
  simp [Halts]

@[simp]
theorem halts_ite {c : Prop} [Decidable c] {x y : Except Fault α} :
    Halts (if c then x else y) ↔ (c → Halts x) ∧ (¬c → Halts y) := by
  split <;> simp [*]

@[simp]
theorem halts_bind {x : Except Fault α} {f : α → Except Fault β} :
    Halts (x >>= f) ↔ Halts x ∧ ∀ a, x = .ok a → Halts (f a) := by
  cases x with
  | ok a => simp
  | error e => simp

@[simp]
theorem halts_map {x : Except Fault α} {f : α → β} : Halts (x.map f) ↔ Halts x := by
  cases x with
  | ok a => simp
  | error e => simp

@[simp]
theorem halts_entry (x : Option α) : Halts (entry x) := by
  cases x with
  | none => simp [entry]
  | some a => simp [entry]

theorem halts_mapM {f : α → Except Fault β} :
    ∀ {l : List α}, (∀ a ∈ l, Halts (f a)) → Halts (l.mapM f)
  | [], _ => halts_ok []
  | a :: l, h => by
      rw [List.mapM_cons, halts_bind]
      have hrest := halts_mapM fun b hb => h b (.tail a hb)
      exact ⟨h a (.head l), fun b _ => by simp [hrest]⟩

theorem halts_filterMapM {f : α → Except Fault (Option β)} (h : ∀ a, Halts (f a)) :
    ∀ l : List α, Halts (l.filterMapM f)
  | [] => halts_ok []
  | a :: l => by
      rw [List.filterMapM_cons, halts_bind]
      refine ⟨h a, fun b _ => ?_⟩
      cases b with
      | none => exact halts_filterMapM h l
      | some b => simp [halts_filterMapM h l]

theorem halts_foldlM {f : σ → α → Except Fault σ} (h : ∀ s a, Halts (f s a)) :
    ∀ (l : List α) (s : σ), Halts (l.foldlM f s)
  | [], s => halts_ok s
  | a :: l, s => by
      rw [List.foldlM_cons, halts_bind]
      exact ⟨h s a, fun t _ => halts_foldlM h l t⟩

theorem halts_forIn {f : α → σ → Except Fault (ForInStep σ)} (h : ∀ a s, Halts (f a s)) :
    ∀ (l : List α) (s : σ), Halts (forIn l s f)
  | [], s => halts_ok s
  | a :: l, s => by
      rw [List.forIn_cons, halts_bind]
      refine ⟨h a s, fun step _ => ?_⟩
      cases step with
      | done t => exact halts_ok t
      | yield t => exact halts_forIn h l t

/-- Edits halt if their first part does, and the rest does wherever it takes over. -/
theorem EditM.halts_bind {m : EditM α} {f : α → EditM β} {s : Session} (hm : Halts (m.runOn s))
    (hf : ∀ a t, m.runOn s = .ok (.ok a, t) → Halts ((f a).runOn t)) :
    Halts ((m >>= f).runOn s) := by
  rw [runOn_bind, Peephole.halts_bind]
  refine ⟨hm, ?_⟩
  rintro ⟨e | a, t⟩ h
  · exact halts_ok _
  · exact hf a t h

end Calculus

namespace Graph

variable {g : Graph} {o : OpId} {v : ValueId} {n : Nat}

/-! ## Questions -/

@[simp]
theorem halts_slot : Halts (g.slot o) := halts_entry _

@[simp]
theorem halts_value : Halts (g.value v) := halts_entry _

@[simp]
theorem halts_block (b : BlockId) : Halts (g.block b) := halts_entry _

@[simp]
theorem halts_region (r : RegionId) : Halts (g.region r) := halts_entry _

@[simp]
theorem halts_op : Halts (g.op o) := by simp [op]

theorem ne_endless_of_op {e : Fault} (h : g.op o = .error e) : e ≠ .endless := by
  have hop : Halts (g.op o) := halts_op
  rwa [h, halts_error] at hop

@[simp]
theorem halts_isLive : Halts (g.isLive o) := by simp [isLive]

@[simp]
theorem halts_kind : Halts (g.kind o) := by simp [kind]

@[simp]
theorem halts_operands : Halts (g.operands o) := by simp [operands]

@[simp]
theorem halts_operand (i : Nat) : Halts (g.operand o i) := by simp [operand]

@[simp]
theorem halts_results : Halts (g.results o) := by simp [results]

@[simp]
theorem halts_result (i : Nat) : Halts (g.result o i) := by simp [result]

@[simp]
theorem halts_totalUses : Halts (g.totalUses o) := by simp [totalUses]

@[simp]
theorem halts_users : Halts (g.users o) := by simp [users]

@[simp]
theorem halts_origin : Halts (g.origin v) := by simp [origin]

@[simp]
theorem halts_definer? : Halts (g.definer? v) := by simp [definer?]

theorem halts_definerOfKind? (k : Kind) : Halts (g.definerOfKind? v k) := by
  rw [definerOfKind?, halts_bind]
  refine ⟨halts_definer?, fun definer _ => ?_⟩
  cases definer with
  | none => exact halts_ok none
  | some o => simp [isKind]

theorem halts_constNumber : Halts (g.constNumber o) := by
  rw [constNumber, halts_bind]
  refine ⟨by simp [attribute?], fun a _ => ?_⟩
  split
  · exact halts_ok _
  · simp

theorem halts_foldedSum? : Halts (g.foldedSum? o) := by
  simp only [foldedSum?, halts_bind, halts_ite]
  refine ⟨by simp [isKind], fun _ _ => ⟨fun _ => halts_ok _, fun _ => ?_⟩⟩
  refine ⟨halts_operand 0, fun _ _ => ⟨halts_definerOfKind? _, ?_⟩⟩
  rintro (_ | left) -
  · exact halts_ok none
  · refine halts_bind.2 ⟨halts_operand 1, fun _ _ => halts_bind.2 ⟨halts_definerOfKind? _, ?_⟩⟩
    rintro (_ | right) -
    · exact halts_ok none
    · simp [halts_constNumber]

/-- Only an addition has a folded sum. -/
theorem kind_of_foldedSum? {sum : Binary64} (h : g.foldedSum? o = .ok (some sum)) :
    ∃ d, g.op o = .ok d ∧ d.kind = .add := by
  rw [foldedSum?, bind_eq_ok] at h
  obtain ⟨add, hadd, h⟩ := h
  cases add with
  | false => cases h
  | true =>
    obtain ⟨d, hd, hkind⟩ := bind_eq_ok.1 hadd
    simp only [pure_eq_ok, Except.ok.injEq, Bool.and_eq_true, Bool.not_eq_true',
      decide_eq_true_eq] at hkind
    exact ⟨d, op_eq_ok.2 ⟨hd, hkind.1⟩, hkind.2⟩

@[simp]
theorem halts_regionOf? : Halts (g.regionOf? o) := by
  rw [regionOf?, halts_bind]
  refine ⟨halts_op, fun d _ => ?_⟩
  cases d.block with
  | none => exact halts_ok none
  | some b => simp

@[simp]
theorem halts_ownerOf? : Halts (g.ownerOf? o) := by
  rw [ownerOf?, halts_bind]
  refine ⟨halts_regionOf?, fun r _ => ?_⟩
  cases r with
  | none => exact halts_ok none
  | some r => simp

@[simp]
theorem halts_position? : Halts (g.position? o) := by
  rw [position?, halts_bind]
  refine ⟨halts_op, fun d _ => ?_⟩
  cases d.block with
  | none => exact halts_ok none
  | some b => simp

/-! ## Walks and searches -/

theorem Linked.halts_nestedOps (hg : g.Linked) (ho : ¬g.Inside o o) : Halts (g.nestedOps o) := by
  cases hd : g.op o with
  | error e => simpa [nestedOps, walkInside, hd] using ne_endless_of_op hd
  | ok d =>
    obtain ⟨l, hl, -⟩ := hg.housed.walk_ok hd ho
    rw [hl]
    exact halts_ok l

theorem Linked.halts_opTree (hg : g.Linked) (ho : ¬g.Inside o o) : Halts (g.opTree o) := by
  cases hd : g.op o with
  | error e =>
    simpa [opTree, walkTree, depth, walkTreeTo, collector, hd] using ne_endless_of_op hd
  | ok d =>
    obtain ⟨l, -, hl, -⟩ := hg.housed.walk_ok hd ho
    rw [hl]
    exact halts_ok _

theorem halts_levelOf (b : BlockId) : Halts (g.levelOf v o b) := by
  rw [levelOf, halts_bind]
  refine ⟨halts_origin, fun y _ => ?_⟩
  cases y with
  | argument c i => simp
  | result p i => simp

/-- A search that has enough depth for the chain of live owners halts. -/
theorem halts_inScopeTo {top : OpId} (h : Within g top n o)
    (htop : ∀ p, g.ownerOf? top = .ok (some p) → ∀ y, g.op p ≠ .ok y) :
    ∀ {k : Nat}, n + 1 < k → Halts (g.inScopeTo v k o) := by
  -- one level of the search, if it halts at the owner
  have hlevel : ∀ {o : OpId} {k : Nat},
      (∀ p, g.ownerOf? o = .ok (some p) → Halts (g.inScopeTo v k p)) →
      Halts (g.inScopeTo v (k + 1) o) := by
    intro o k howner
    rw [inScopeTo, halts_bind]
    refine ⟨halts_op, fun d _ => ?_⟩
    split
    · exact halts_ok false
    · refine halts_bind.2 ⟨halts_levelOf _, fun level _ => ?_⟩
      cases level with
      | here answer => exact halts_ok answer
      | above =>
        refine halts_bind.2 ⟨halts_ownerOf?, ?_⟩
        rintro (_ | p) hp
        · exact halts_ok false
        · exact howner p hp
  induction h with
  | root =>
    rintro (_ | _ | k) hk
    · omega
    · omega
    · refine hlevel fun p hp => ?_
      rw [inScopeTo, halts_bind]
      exact ⟨halts_op, fun y hy => absurd hy (htop p hp y)⟩
  | step howner _ ih =>
    rintro (_ | k) hk
    · omega
    · refine hlevel fun p hp => ?_
      rw [howner] at hp
      cases hp
      exact ih (Nat.lt_of_succ_lt_succ hk)

theorem Anchored.halts_inScope (h : g.Anchored o) : Halts (g.inScope v o) := by
  cases hd : g.op o with
  | error e => simpa [inScope, depth, inScopeTo, hd] using ne_endless_of_op hd
  | ok d =>
    obtain ⟨n, top, x, hn, hx, hanchored, htop⟩ := h.top hd
    have hlevel := hn.level_lt hx hanchored.not_inside
    exact halts_inScopeTo hn htop (Nat.succ_lt_succ hlevel)

/-! ## Validation -/

theorem halts_describe : Halts (g.describe v) := by
  rw [describe, halts_bind]
  refine ⟨halts_origin, fun y _ => ?_⟩
  cases y with
  | argument b i => exact halts_ok _
  | result o i => simp

theorem Anchored.halts_checkOperands (h : g.Anchored o) :
    ∀ (i : Nat) (vs : List ValueId), Halts (g.checkOperands o i vs)
  | i, [] => halts_ok []
  | i, v :: vs => by
      simp [checkOperands, checkOperand, h.halts_inScope, halts_describe,
        h.halts_checkOperands (i + 1) vs]

theorem Linked.halts_unavailableOperands (hg : g.Linked) (ho : g.Anchored o) :
    Halts (g.unavailableOperands o) := by
  cases hd : g.op o with
  | error e => simpa [unavailableOperands, walkInside, hd] using ne_endless_of_op hd
  | ok d =>
    obtain ⟨nested, hnested, -, -, hmem⟩ := hg.housed.walk_ok hd ho.not_inside
    rw [unavailableOperands_eq hnested, halts_map]
    refine halts_mapM fun p hp => halts_bind.2 ⟨halts_operands, fun vs _ => ?_⟩
    obtain ⟨n, hn⟩ := (hmem p).1 hp
    exact (ho.within hn).halts_checkOperands 0 vs

theorem halts_checkUses (slots : List (ValueId × Use)) : Halts (g.checkUses slots v) := by
  simp only [checkUses, halts_bind]
  refine ⟨halts_mapM fun u _ => by simp, fun missing _ => ?_⟩
  exact ⟨halts_filterMapM (fun u => by simp [checkUse]) _, fun wrong _ => halts_ok _⟩

theorem Linked.halts_useErrors (hg : g.Linked) (ho : ¬g.Inside o o) : Halts (g.useErrors o) := by
  simp only [useErrors, halts_bind]
  refine ⟨hg.halts_opTree ho, fun tree _ => ⟨halts_mapM fun p _ => by simp, fun datas _ => ?_⟩⟩
  refine ⟨halts_mapM fun x _ => ?_, fun values _ => ⟨halts_mapM fun v _ => ?_, ?_⟩⟩
  · exact halts_bind.2 ⟨halts_mapM fun r _ => halts_region r, fun _ _ => halts_ok _⟩
  · exact halts_checkUses _
  · exact fun _ _ => halts_ok _

theorem Linked.halts_validate (hg : g.Linked) (ho : g.Anchored o) : Halts (g.validate o) := by
  simp [validate, hg.halts_unavailableOperands ho, hg.halts_useErrors ho.not_inside]

/-! ## Changes -/

theorem halts_claimRegion (r : RegionId) : Halts (g.claimRegion o r) := by
  rw [claimRegion, halts_bind]
  refine ⟨halts_region r, fun R _ => ?_⟩
  split
  · simp
  · exact halts_ok _

theorem halts_newOp (d : Draft) : Halts (g.newOp d) := by
  simp [newOp, halts_foldlM fun g r => halts_claimRegion (g := g) r]

theorem halts_placeBefore (a : OpId) : Halts (g.placeBefore a o) := by
  rw [placeBefore, halts_bind]
  refine ⟨halts_op, fun d _ => ?_⟩
  split
  · simp
  · refine halts_bind.2 ⟨halts_op, fun x _ => ?_⟩
    split
    · simp
    · refine halts_bind.2 ⟨halts_block _, fun B _ => ?_⟩
      split
      · simp
      · exact halts_ok _

theorem halts_redirectUses (old new : ValueId) : Halts (g.redirectUses old new) := by
  have hone : ∀ (g : Graph) (u : Use), Halts (redirect old new g u) := by
    intro g u
    simp [redirect]
  simp [redirectUses, halts_foldlM hone]

/-- Erasing halts in a linked graph, since the depth it is given is enough. -/
theorem Linked.halts_erase (hg : g.Linked) : Halts (g.erase o) := by
  simp only [Graph.erase, halts_bind, size_blocks_unlist]
  refine ⟨halts_results, fun results _ => ⟨halts_forIn (fun v _ => by simp) _ _, fun _ _ => ?_⟩⟩
  refine ⟨halts_op, fun d hd => ?_⟩
  obtain ⟨g', hg'⟩ := hg.complete.eraseUnlisted_ok hd
  rw [hg']
  exact halts_ok g'

end Graph

/-! ## Notices -/

theorem Worklist.halts_queueDefiner {g : Graph} (w : Worklist) (v : ValueId) :
    Halts (w.queueDefiner g v) := by
  rw [queueDefiner, halts_bind]
  refine ⟨Graph.halts_definer?, ?_⟩
  rintro (_ | o) -
  · exact halts_ok w
  · simp

theorem Observer.halts_notify {g : Graph} (n : Notice) (observer : Observer) :
    Halts (observer.notify g n) := by
  cases observer with
  | silent => exact halts_ok silent
  | recorder events =>
    cases n with
    | inserted _ | updated _ | erasing _ | replaced _ _ => simp [notify, Event.ofNotice]
  | worklist w =>
    cases n with
    | inserted _ | updated _ => simp [notify, Worklist.react]
    | erasing o => simp [notify, Worklist.react, halts_foldlM Worklist.halts_queueDefiner]
    | replaced old users => simp [notify, Worklist.react, Worklist.halts_queueDefiner]

/-! ## Edits -/

/-- A walk of what is nested in the operation ends. -/
structure Graph.Erasable (g : Graph) (o : OpId) : Prop where
  linked : g.Linked
  unnested : ¬g.Inside o o

theorem Graph.Erasable.edited {g g' : Graph} {o : OpId} (h : g.Erasable o)
    (he : g.Edited Draft.Flat g') : g'.Erasable o :=
  ⟨he.linked h.linked, fun ho => h.unnested ((he.reshaped h.linked).inside_self h.linked ho)⟩

namespace EditM

variable {s : Session} {o : OpId}

theorem halts_changed (g : Graph) (n : Notice) : Halts ((changed g n).runOn s) := by
  simp [changed, Observer.halts_notify]

theorem halts_insert (d : Draft) : Halts ((insert o d).runOn s) := by
  simp only [insert, runOn_ask_bind, runOn_lift_bind, Peephole.halts_bind]
  refine ⟨Graph.halts_newOp d, fun _ _ => ⟨Graph.halts_placeBefore o, fun g _ => ?_⟩⟩
  exact halts_bind (halts_changed g _) fun _ _ _ => halts_ok _

theorem halts_redirectUses (old new : ValueId) : Halts ((redirectUses old new).runOn s) := by
  rw [redirectUses, runOn_graph_bind]
  dsimp only
  split
  · exact halts_ok _
  · rw [runOn_lift_bind, Peephole.halts_bind]
    exact ⟨Graph.halts_redirectUses old new, fun g _ => halts_changed g _⟩

theorem halts_announceErasing (os : List OpId) : Halts ((announceErasing os).runOn s) := by
  rw [announceErasing, runOn_get_bind]
  refine halts_bind ?_ fun _ _ _ => halts_ok _
  rw [runOn_foldlM_lift, halts_map]
  exact halts_foldlM (fun observer o => Observer.halts_notify _ observer) _ _

theorem halts_erase (ho : s.graph.Erasable o) : Halts ((erase o).runOn s) := by
  have hnested := ho.linked.halts_nestedOps ho.unnested
  rw [erase, runOn_graph_bind, runOn_lift_bind, Peephole.halts_bind]
  refine ⟨Graph.halts_isLive, fun live _ => ?_⟩
  cases live with
  | false => exact (halts_error _).2 (by simp)
  | true =>
    simp only [Bool.not_true, Bool.false_eq_true, if_false, runOn_lift_bind, Peephole.halts_bind]
    refine ⟨Graph.halts_totalUses, fun n _ => ?_⟩
    split
    · rw [runOn_lift_bind, Peephole.halts_bind]
      exact ⟨Graph.halts_kind, fun _ _ => halts_ok _⟩
    · rw [runOn_lift_bind, Peephole.halts_bind]
      refine ⟨hnested, fun nested _ => halts_bind (halts_announceErasing _) fun _ t _ => ?_⟩
      rw [runOn_lift_bind, Peephole.halts_bind]
      exact ⟨ho.linked.halts_erase, fun _ _ => halts_ok _⟩

theorem halts_forM {γ : Type} {f : γ → EditM PUnit} (hf : ∀ c s, Halts ((f c).runOn s)) :
    ∀ (l : List γ) (s : Session), Halts ((forM l f).runOn s)
  | [], s => halts_ok _
  | c :: l, s => by
      rw [List.forM_cons]
      exact halts_bind (hf c s) fun _ t _ => halts_forM hf l t

theorem halts_replace (ho : s.graph.Erasable o) (values : List ValueId) :
    Halts ((replace o values).runOn s) := by
  rw [replace_eq, runOn_ask_bind, Peephole.halts_bind]
  refine ⟨Graph.halts_results, fun results _ => ?_⟩
  split
  · exact (halts_error _).2 (by simp)
  · -- redirecting the uses moves no operation, so what could be erased before still can
    refine halts_bind (halts_forM (fun x s => halts_redirectUses _ _) _ s) fun _ t ht => ?_
    have hsteps : s.Steps Draft.Flat t := steps_forM (fun _ _ _ _ hr => steps_redirectUses hr) ht
    exact halts_erase (ho.edited hsteps.edited)

/-- Putting a new operation in the place of another one halts. -/
theorem halts_supersede {α : Type} {d : Draft} (ho : s.graph.Erasable o) (hd : d.Flat) (a : α) :
    Halts ((do
      let new ← insert o d
      let value ← ask fun g => g.result new 0
      replace o [value]
      return a : EditM α).runOn s) := by
  refine halts_bind (halts_insert d) fun new t ht => ?_
  have hsteps : s.Steps Draft.Flat t := (Program.insert hd).steps ht
  rw [runOn_ask_bind, Peephole.halts_bind]
  refine ⟨Graph.halts_result 0, fun value _ => ?_⟩
  exact halts_bind (halts_replace (ho.edited hsteps.edited) [value]) fun _ _ _ => halts_ok _

theorem halts_fold (ho : ∀ d, s.graph.op o = .ok d → d.kind = .add → s.graph.Erasable o) :
    Halts ((fold o).runOn s) := by
  rw [fold, runOn_ask_bind, Peephole.halts_bind]
  refine ⟨Graph.halts_foldedSum?, fun sum hsum => ?_⟩
  cases sum with
  | none => exact halts_ok _
  | some sum =>
    obtain ⟨d, hd, hkind⟩ := Graph.kind_of_foldedSum? hsum
    rw [runOn_ask_bind, Peephole.halts_bind]
    refine ⟨Graph.halts_op, fun x _ => ?_⟩
    exact halts_supersede (d := .const x.location sum) (ho d hd hkind) rfl true

end EditM

end Peephole
