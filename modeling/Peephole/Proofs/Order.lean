import Peephole.Proofs.Notices

/-!
# Who is looked at first

The operations under a root are queued so that the first one is on top, and what a reduction
queues is put above the others.  So the order of a sweep is that of the text only as far as
reductions do not queue what is still to come.

`Worklist.InTurn w todo` says that some operations still to come are taken in their order.
They wait on the stack one above the other, and an entry above them is none of them, but for
the first one, which a reduction right before it queues again.  Taking an operation takes the
first of them or another one (`InTurn.pop`), and a notice that reaches none of them but the
first one keeps the order (`InTurn.reacts`).
-/

namespace Peephole

namespace Worklist

variable {w w' : Worklist} {P : OpId → Prop} {o : OpId} {todo : List OpId}

/-! ## The stack -/

theorem nextQueued_eq_some {stack rest : List OpId} (h : w.nextQueued stack = some (o, rest)) :
    ∃ skipped, stack = skipped ++ o :: rest ∧ ∀ x ∈ skipped, w.status x ≠ .queued := by
  induction stack with
  | nil => cases h
  | cons a stack ih =>
    rw [nextQueued] at h
    split at h
    · cases h
      exact ⟨[], rfl, fun _ hx => absurd hx List.not_mem_nil⟩
    · rename_i ha
      obtain ⟨skipped, rfl, hskipped⟩ := ih h
      exact ⟨a :: skipped, rfl, List.forall_mem_cons.2 ⟨ha, hskipped⟩⟩

theorem stack_queueAll {os : List OpId} (h : ∀ o, w.status o ≠ .erased) :
    (w.queueAll os).stack = os.reverse ++ w.stack := by
  induction os generalizing w with
  | nil => rfl
  | cons o os ih =>
    have hqueue : (w.queue o).stack = o :: w.stack := by rw [queue, if_neg (h o)]
    refine (ih fun p => ?_).trans (by rw [hqueue, List.reverse_cons, List.append_assoc]; rfl)
    rw [status_queue]
    split
    · decide
    · exact h p

/-- What a notice queues is put above the rest. -/
theorem Reacts.stack (h : w.Reacts P w') :
    ∃ above, w'.stack = above ++ w.stack ∧ ∀ o ∈ above, P o := by
  induction h with
  | none => exact ⟨[], rfl, nofun⟩
  | @queue w' o _ ho ih =>
    obtain ⟨above, hstack, habove⟩ := ih
    rw [Worklist.queue]
    split
    · exact ⟨above, hstack, habove⟩
    · exact ⟨o :: above, congrArg (o :: ·) hstack, List.forall_mem_cons.2 ⟨ho, habove⟩⟩
  | erase _ _ ih => exact ih

/-- What was queued still is, unless it has been erased. -/
theorem Reacts.still (h : w.Reacts P w') (ho : w.status o = .queued) :
    w'.status o = .queued ∨ w'.status o = .erased := by
  induction h with
  | none => exact .inl ho
  | queue _ _ ih =>
    rw [status_queue]
    split
    · exact .inl rfl
    · exact ih
  | erase _ _ ih =>
    rw [status_mark]
    split
    · exact .inr rfl
    · exact ih

/-! ## Operations in turn -/

/-- The operations are queued and will be taken in this order. -/
structure InTurn (w : Worklist) (todo : List OpId) : Prop where
  nodup : todo.Nodup
  queued : ∀ o ∈ todo, w.status o = .queued
  stack : ∃ above below, w.stack = above ++ (todo ++ below) ∧ ∀ o ∈ above, o ∉ todo.tail

namespace InTurn

/-- The operation that is taken is the first one of them, or none of them. -/
theorem pop (h : w.InTurn todo) (hpop : w.pop = some (o, w')) :
    (∃ rest, todo = o :: rest ∧ w'.InTurn rest) ∨ o ∉ todo ∧ w'.InTurn todo := by
  simp only [Worklist.pop, Option.map_eq_some_iff, Prod.exists, Prod.mk.injEq] at hpop
  obtain ⟨o, rest, hnext, rfl, rfl⟩ := hpop
  obtain ⟨skipped, hstack', hskipped⟩ := nextQueued_eq_some hnext
  obtain ⟨above, below, hstack, habove⟩ := h.stack
  rw [hstack] at hstack'
  cases todo with
  | nil =>
    exact .inr ⟨List.not_mem_nil, .nil, by simp, rest, [], by simp, fun _ _ => List.not_mem_nil⟩
  | cons t ts =>
    obtain ⟨ht, hts⟩ := List.nodup_cons.1 h.nodup
    have htsq : ∀ x ∈ ts, w.status x = .queued := fun x hx => h.queued x (.tail t hx)
    rcases List.append_eq_append_iff.1 hstack' with ⟨s, hs, hrest⟩ | ⟨s, hs, hrest⟩
    · -- nothing above them is queued
      have hnil : s = [] := by
        cases s with
        | nil => rfl
        | cons x s =>
          obtain rfl : t = x := (List.cons.inj hrest).1
          exact absurd (h.queued t (.head ts)) (hskipped t (by simp [hs]))
      subst hnil
      obtain ⟨rfl, rfl⟩ := List.cons.inj hrest
      exact .inl ⟨ts, rfl, hts, htsq, [], below, rfl, by simp⟩
    · cases s with
      | nil =>
        obtain ⟨rfl, rfl⟩ := List.cons.inj hrest.symm
        exact .inl ⟨ts, rfl, hts, htsq, [], below, rfl, by simp⟩
      | cons x s =>
        obtain ⟨rfl, rfl⟩ := List.cons.inj hrest
        have hs' : ∀ x ∈ s, x ∉ ts := fun x hx => habove x (by simp [hs, hx])
        by_cases heq : o = t
        · subst heq
          refine .inl ⟨ts, rfl, hts, htsq, s ++ [o], below, by simp, ?_⟩
          rintro x hx hmem
          have hmem := List.mem_of_mem_tail hmem
          rcases List.mem_append.1 hx with hx | hx
          · exact hs' x hx hmem
          · exact ht (List.mem_singleton.1 hx ▸ hmem)
        · refine .inr ⟨?_, h.nodup, h.queued, s, below, rfl, hs'⟩
          intro hmem
          rcases List.mem_cons.1 hmem with rfl | hmem
          · exact heq rfl
          · exact habove o (by simp [hs]) hmem

theorem mark {s : Status} (h : w.InTurn todo) (ho : o ∉ todo) : (w.mark o s).InTurn todo where
  nodup := h.nodup
  queued p hp := by
    rw [status_mark, if_neg, h.queued p hp]
    rintro rfl
    exact ho hp
  stack := h.stack

theorem settle (h : w.InTurn todo) : (w.settle o).InTurn todo := by
  rw [Worklist.settle]
  split
  · rename_i ho
    refine h.mark fun hmem => ?_
    rw [h.queued o hmem] at ho
    cases ho
  · exact h

theorem reacts (h : w.InTurn todo) (hr : w.Reacts P w') (hP : ∀ o, P o → o ∉ todo.tail)
    (hlive : ∀ o ∈ todo, w'.status o ≠ .erased) : w'.InTurn todo where
  nodup := h.nodup
  queued o ho := (hr.still (h.queued o ho)).resolve_right (hlive o ho)
  stack := by
    obtain ⟨above, below, hstack, habove⟩ := h.stack
    obtain ⟨above', hstack', habove'⟩ := hr.stack
    refine ⟨above' ++ above, below, by rw [hstack', hstack, List.append_assoc], ?_⟩
    intro o ho
    rcases List.mem_append.1 ho with ho | ho
    · exact hP o (habove' o ho)
    · exact habove o ho

/-- At the start of a sweep, operations that follow one another are in turn. -/
theorem seed {ops before after : List OpId} (h : ∀ o, w.status o ≠ .erased) (hops : ops.Nodup)
    (heq : ops = before ++ (todo ++ after)) : (w.queueAll ops.reverse).InTurn todo where
  nodup := by
    rw [heq] at hops
    exact (List.nodup_append'.1 (List.nodup_append'.1 hops).2.1).1
  queued o ho := by
    have hmem : o ∈ ops.reverse := by simp [heq, ho]
    exact (waits_queueAll hmem (h o)).1
  stack := by
    refine ⟨before, after ++ w.stack, by simp [stack_queueAll h, heq], ?_⟩
    intro o ho hmem
    rw [heq, List.nodup_append'] at hops
    exact hops.2.2 ho (List.mem_append.2 (.inl (List.mem_of_mem_tail hmem)))

/-- They are all taken before the end. -/
theorem eq_nil (h : w.InTurn todo) (hnone : ∀ o, ¬w.Waits o) : todo = [] := by
  obtain ⟨above, below, hstack, -⟩ := h.stack
  refine List.eq_nil_iff_forall_not_mem.2 fun o ho => hnone o ⟨h.queued o ho, ?_⟩
  simp [hstack, ho]

end InTurn

end Worklist

end Peephole
