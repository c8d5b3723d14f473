import Peephole.Proofs.Editing

/-!
# How edits of a session run

For each edit of a session, when it succeeds and what session it leaves.  Every one is
an equivalence, so it serves to take apart an edit that has run as well as to run one
whose parts are known to succeed.
-/

namespace Peephole

/-- Whether the slots keep what was written, if every write succeeds. -/
def Ending.keeps : Ending → Bool
  | .commit | .drop => true
  | .cancel | .abandon => false

namespace EditM

variable {s t : Session}

theorem runOn_insert {anchor : OpId} {d : Draft} {answer : Except EditError OpId} :
    (insert anchor d).runOn s = .ok (answer, t) ↔ ∃ o g₁ g₂ observer,
      s.graph.newOp d = .ok (o, g₁) ∧ g₁.placeBefore anchor o = .ok g₂ ∧
      s.observer.notify g₂ (.inserted o) = .ok observer ∧ answer = .ok o ∧
      t = { s with graph := g₂, observer, mutated := true } := by
  simp only [insert, runOn_ask_bind, runOn_lift_bind, bind_eq_ok]
  constructor
  · rintro ⟨⟨o, g₁⟩, hnew, g₂, hplace, h⟩
    rcases runOn_bind_eq_ok.1 h with ⟨e, hc, -⟩ | ⟨_, s', hc, h'⟩
    · obtain ⟨_, -, he, -⟩ := runOn_changed.1 hc
      cases he
    · obtain ⟨observer, hn, -, rfl⟩ := runOn_changed.1 hc
      cases h'
      exact ⟨o, g₁, g₂, observer, hnew, hplace, hn, rfl, rfl⟩
  · rintro ⟨o, g₁, g₂, observer, hnew, hplace, hn, rfl, rfl⟩
    refine ⟨(o, g₁), hnew, g₂, hplace, ?_⟩
    rw [runOn_bind_of_ok (runOn_changed.2 ⟨observer, hn, rfl, rfl⟩)]
    rfl

theorem runOn_redirectUses {old new : ValueId} {answer : Except EditError Unit} :
    (redirectUses old new).runOn s = .ok (answer, t) ↔ answer = .ok () ∧
      ((old = new ∨ s.graph.readers old = []) ∧ t = s ∨
        ¬(old = new ∨ s.graph.readers old = []) ∧ ∃ g observer,
          s.graph.redirectUses old new = .ok g ∧
          s.observer.notify g (.replaced old (s.graph.readers old)) = .ok observer ∧
          t = { s with graph := g, observer, mutated := true }) := by
  rw [redirectUses, runOn_graph_bind]
  dsimp only
  split
  · rename_i hidle
    constructor
    · intro h
      cases h
      exact ⟨rfl, .inl ⟨hidle, rfl⟩⟩
    · rintro ⟨rfl, ⟨-, rfl⟩ | ⟨hbusy, -⟩⟩
      · rfl
      · exact absurd hidle hbusy
  · rename_i hbusy
    rw [runOn_lift_bind, bind_eq_ok]
    constructor
    · rintro ⟨g, hg, h⟩
      obtain ⟨observer, hn, rfl, rfl⟩ := runOn_changed.1 h
      exact ⟨rfl, .inr ⟨hbusy, g, observer, hg, hn, rfl⟩⟩
    · rintro ⟨rfl, ⟨hidle, -⟩ | ⟨-, g, observer, hg, hn, rfl⟩⟩
      · exact absurd hidle hbusy
      · exact ⟨g, hg, runOn_changed.2 ⟨observer, hn, rfl, rfl⟩⟩

/-- An operation is erased if it is live and its results are not read.  If they are
read, nothing happens. -/
theorem runOn_erase {o : OpId} {answer : Except EditError Unit} :
    (erase o).runOn s = .ok (answer, t) ↔ ∃ d n, s.graph.op o = .ok d ∧
      s.graph.totalUses o = .ok n ∧
      (0 < n ∧ answer = .error (.stillRead o d.kind n) ∧ t = s ∨
        n = 0 ∧ ∃ nested observer g, s.graph.nestedOps o = .ok nested ∧
          (nested ++ [o]).foldlM (fun observer o => observer.notify s.graph (.erasing o))
            s.observer = .ok observer ∧
          s.graph.erase o = .ok g ∧ answer = .ok () ∧
          t = { s with graph := g, observer, mutated := true }) := by
  rw [erase, runOn_graph_bind, runOn_lift_bind, bind_eq_ok]
  constructor
  · rintro ⟨live, hlive, h⟩
    cases live with
    | false => cases h
    | true =>
      obtain ⟨d, hd⟩ := Graph.isLive_eq_true.1 hlive
      simp only [Bool.not_true, Bool.false_eq_true, if_false, runOn_lift_bind, bind_eq_ok] at h
      obtain ⟨n, hn, h⟩ := h
      refine ⟨d, n, hd, hn, ?_⟩
      split at h
      · rename_i hpos
        obtain ⟨k, hk, h⟩ := bind_eq_ok.1 ((runOn_lift_bind _ _ _).symm.trans h)
        have hkind : s.graph.kind o = .ok d.kind := by
          rw [Graph.kind, hd]
          rfl
        rw [hkind] at hk
        cases hk
        cases h
        exact .inl ⟨hpos, rfl, rfl⟩
      · rename_i hzero
        obtain ⟨nested, hnested, h⟩ := bind_eq_ok.1 ((runOn_lift_bind _ _ _).symm.trans h)
        rcases runOn_bind_eq_ok.1 h with ⟨e, ha, -⟩ | ⟨_, s', ha, h⟩
        · obtain ⟨_, -, he, -⟩ := runOn_announceErasing.1 ha
          cases he
        · obtain ⟨observer, hobs, -, rfl⟩ := runOn_announceErasing.1 ha
          obtain ⟨g, hg, h⟩ := bind_eq_ok.1 ((runOn_lift_bind _ _ _).symm.trans h)
          cases h
          exact .inr ⟨by omega, nested, observer, g, hnested, hobs, hg, rfl, rfl⟩
  · rintro ⟨d, n, hd, hn, h⟩
    refine ⟨true, Graph.isLive_of_op hd, ?_⟩
    simp only [Bool.not_true, Bool.false_eq_true, if_false, runOn_lift_bind, hn, ok_bind]
    rcases h with ⟨hpos, rfl, rfl⟩ | ⟨rfl, nested, observer, g, hnested, hobs, hg, rfl, rfl⟩
    · rw [if_pos hpos]
      have hkind : t.graph.kind o = .ok d.kind := by
        rw [Graph.kind, hd]
        rfl
      rw [runOn_lift_bind, hkind]
      rfl
    · rw [if_neg (Nat.lt_irrefl 0), runOn_lift_bind, hnested, ok_bind,
        runOn_bind_of_ok (runOn_announceErasing.2 ⟨observer, hobs, rfl, rfl⟩), runOn_lift_bind]
      rw [hg]
      rfl

/-! ## Updates -/

/-- Edits that have the same answer however they run, with an end that does nothing. -/
theorem runOn_bind_of_answer {α β : Type} {m : EditM α} {f : α → EditM β} {a : α} {b : β}
    (hm : ∀ {s t : Session} {answer : Except EditError α}, m.runOn s = .ok (answer, t) →
      answer = .ok a)
    (hf : ∀ s, (f a).runOn s = .ok (.ok b, s)) {s t : Session} {answer : Except EditError β} :
    (m >>= f).runOn s = .ok (answer, t) ↔ m.runOn s = .ok (.ok a, t) ∧ answer = .ok b := by
  rw [runOn_bind_eq_ok]
  constructor
  · rintro (⟨e, h, -⟩ | ⟨a', s', h, h'⟩)
    · cases hm h
    · cases hm h
      rw [hf] at h'
      cases h'
      exact ⟨h, rfl⟩
  · rintro ⟨h, rfl⟩
    exact .inr ⟨a, t, h, hf t⟩

variable {u : Update} {g : Graph}

theorem runOn_commit {answer : Except EditError Update} :
    (commit u g).runOn s = .ok (answer, t) ↔ answer = .ok u.close ∧
      (u.isChange g = .ok true ∧ (∃ observer, s.observer.notify g (.updated u.op) = .ok observer ∧
        t = { s with graph := g, observer, mutated := true }) ∨
      u.isChange g = .ok false ∧ t = { s with graph := g }) := by
  rw [commit, runOn_lift_bind, bind_eq_ok]
  constructor
  · rintro ⟨change, hchange, h⟩
    cases change with
    | true =>
      rcases runOn_bind_eq_ok.1 h with ⟨e, hc, -⟩ | ⟨_, s', hc, h⟩
      · obtain ⟨_, -, he, -⟩ := runOn_changed.1 hc
        cases he
      · obtain ⟨observer, hn, -, rfl⟩ := runOn_changed.1 hc
        cases h
        exact ⟨rfl, .inl ⟨hchange, observer, hn, rfl⟩⟩
    | false =>
      cases h
      exact ⟨rfl, .inr ⟨hchange, rfl⟩⟩
  · rintro ⟨rfl, ⟨hchange, observer, hn, rfl⟩ | ⟨hchange, rfl⟩⟩
    · refine ⟨true, hchange, ?_⟩
      exact runOn_bind_of_ok (runOn_changed.2 ⟨observer, hn, rfl, rfl⟩)
    · exact ⟨false, hchange, rfl⟩

theorem runOn_restore {answer : Except EditError Update} :
    (restore u g).runOn s = .ok (answer, t) ↔ ∃ g', u.restore g = .ok g' ∧
      answer = .ok u.close ∧ t = { s with graph := g' } := by
  rw [restore, runOn_lift_bind, bind_eq_ok]
  constructor
  · rintro ⟨g', hg', h⟩
    cases h
    exact ⟨g', hg', rfl, rfl⟩
  · rintro ⟨g', hg', rfl, rfl⟩
    exact ⟨g', hg', rfl⟩

theorem answer_of_restore {s t : Session} {answer : Except EditError Update}
    (h : (restore u g).runOn s = .ok (answer, t)) : answer = .ok u.close := by
  obtain ⟨g', -, hanswer, -⟩ := runOn_restore.1 h
  exact hanswer

/-- An open update is taken back when an owner who gives up lets it go. -/
theorem runOn_release_givingUp (h : u.isOpen = true) {answer : Except EditError Unit} :
    (release u g true).runOn s = .ok (answer, t) ↔
      (restore u g).runOn s = .ok (.ok u.close, t) ∧ answer = .ok () := by
  rw [release, if_pos h, if_pos rfl]
  exact runOn_bind_of_answer answer_of_restore fun s => rfl

/-- A commit and a drop keep what was written.  What was committed is closed, so nothing more
happens when it is let go. -/
theorem runOn_finish_kept {ending : Ending} (h : u.isOpen = true) (hkeeps : ending.keeps = true)
    {answer : Except EditError (Except Fault (List ValueId))} :
    (finish u g ending).runOn s = .ok (answer, t) ↔
      (commit u g).runOn s = .ok (.ok u.close, t) ∧ answer = .ok (g.operands u.op) := by
  cases ending with
  | commit => exact runOn_bind_of_answer (fun h => (runOn_commit.1 h).1) fun s => rfl
  | drop =>
    rw [finish, release, if_pos h, if_neg (by simp), bind_assoc]
    exact runOn_bind_of_answer (fun h => (runOn_commit.1 h).1) fun s => rfl
  | cancel | abandon => cases hkeeps

/-- The other endings take it back. -/
theorem runOn_finish_undone {ending : Ending} (h : u.isOpen = true)
    (hkeeps : ending.keeps = false) : ∃ a, ∀ {s t : Session}
      {answer : Except EditError (Except Fault (List ValueId))},
      (finish u g ending).runOn s = .ok (answer, t) ↔
        (restore u g).runOn s = .ok (.ok u.close, t) ∧ answer = .ok a := by
  cases ending with
  | cancel => exact ⟨_, runOn_bind_of_answer answer_of_restore fun s => rfl⟩
  | abandon =>
    refine ⟨.error .givenUp, fun {s t answer} => ?_⟩
    rw [finish, release, if_pos h, if_pos rfl, bind_assoc]
    exact runOn_bind_of_answer answer_of_restore fun s => rfl
  | commit | drop => cases hkeeps

end EditM

end Peephole
