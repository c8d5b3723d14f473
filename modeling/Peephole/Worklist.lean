import Peephole.Graph.Basic

/-!
# The worklist

The operations still to be looked at wait on a stack.  Beside it every operation has
a status, and only entries of queued operations count when the stack is popped, so an
operation may stand there several times and is taken once.  An erased operation is
never queued again.
-/

namespace Peephole

/-- What the worklist knows of an operation. -/
inductive Status where
  /-- Nothing. -/
  | untracked
  /-- It waits on the stack. -/
  | queued
  /-- It is being looked at. -/
  | inProgress
  /-- It was looked at and did not change since. -/
  | settled
  /-- It was erased. -/
  | erased
deriving DecidableEq, Repr

instance : Inhabited Status := ⟨.untracked⟩

/-- The operations still to be looked at. -/
structure Worklist where
  /-- The stack, its top first. -/
  stack : List OpId
  /-- The status of every operation. -/
  table : SideTable Status

namespace Worklist

/-- Nothing to be looked at. -/
def empty : Worklist := ⟨[], .empty⟩

/-- The status of an operation. -/
def status (w : Worklist) (o : OpId) : Status := w.table.get o.index

/-- Writes the status of an operation. -/
def mark (w : Worklist) (o : OpId) (s : Status) : Worklist :=
  { w with table := w.table.set o.index s }

/-- Queues an operation, unless it was erased. -/
def queue (w : Worklist) (o : OpId) : Worklist :=
  if w.status o = .erased then w else { (w.mark o .queued) with stack := o :: w.stack }

/-- Queues operations one after the other. -/
def queueAll (w : Worklist) (ops : List OpId) : Worklist := ops.foldl queue w

/-- Queues the operation that makes a value, if a live one does. -/
def queueDefiner (g : Graph) (w : Worklist) (v : ValueId) : Except Fault Worklist := do
  match ← g.definer? v with
  | none => return w
  | some o => return if ← g.isLive o then w.queue o else w

/-- Drops entries off the top of the stack until one of a queued operation. -/
def nextQueued (w : Worklist) : List OpId → Option (OpId × List OpId)
  | [] => none
  | o :: rest => if w.status o = .queued then some (o, rest) else w.nextQueued rest

/-- Takes the topmost queued operation. -/
def pop (w : Worklist) : Option (OpId × Worklist) :=
  (w.nextQueued w.stack).map fun (o, rest) => (o, { w with stack := rest })

/-- Whether a queued operation is on the stack. -/
def anyQueued (w : Worklist) : Bool := w.stack.any fun o => w.status o = .queued

/-- Empties the stack.  The statuses stay. -/
def clear (w : Worklist) : Worklist := { w with stack := [] }

/-- An operation that was being looked at is settled, if nothing queued or erased it
meanwhile. -/
def settle (w : Worklist) (o : OpId) : Worklist :=
  if w.status o = .inProgress then w.mark o .settled else w

/-! ## Statuses -/

@[simp]
theorem status_empty (o : OpId) : empty.status o = .untracked := by
  rw [status, empty, SideTable.get_empty]
  rfl

theorem status_mark (w : Worklist) (o p : OpId) (s : Status) :
    (w.mark o s).status p = if o = p then s else w.status p := by
  have h : o.index = p.index ↔ o = p := by
    constructor
    · intro h
      cases o
      cases p
      exact congrArg OpId.mk h
    · intro h
      rw [h]
  simp only [status, mark, SideTable.get_set, h]

/-- Queueing changes no other status, and that of an erased operation not at all. -/
theorem status_queue (w : Worklist) (o p : OpId) :
    (w.queue o).status p =
      if o = p ∧ w.status o ≠ .erased then .queued else w.status p := by
  by_cases h : w.status o = .erased
  · simp [queue, h]
  · rw [queue, if_neg h]
    refine (status_mark w o p .queued).trans ?_
    simp [h]

/-- What is taken from the stack is queued. -/
theorem queued_of_nextQueued {w : Worklist} {o : OpId} {rest : List OpId} :
    ∀ {stack : List OpId}, w.nextQueued stack = some (o, rest) →
      w.status o = .queued ∧ o ∈ stack
  | q :: stack, h => by
      rw [nextQueued] at h
      split at h
      · rename_i hq
        cases h
        exact ⟨hq, .head _⟩
      · exact (queued_of_nextQueued h).imp_right (.tail _)

/-! ## The stack gets shorter -/

theorem nextQueued_length {w : Worklist} {stack : List OpId} {o : OpId} {rest : List OpId}
    (h : w.nextQueued stack = some (o, rest)) : rest.length < stack.length := by
  induction stack with
  | nil => simp [nextQueued] at h
  | cons a as ih =>
    rw [nextQueued] at h
    split at h
    · simp only [Option.some.injEq, Prod.mk.injEq] at h
      simp [h.2]
    · have := ih h
      simp only [List.length_cons]
      omega

theorem pop_stack_length {w w' : Worklist} {o : OpId} (h : w.pop = some (o, w')) :
    w'.stack.length < w.stack.length := by
  simp only [pop, Option.map_eq_some_iff, Prod.exists, Prod.mk.injEq] at h
  obtain ⟨a, rest, hn, rfl, rfl⟩ := h
  exact nextQueued_length hn

@[simp]
theorem stack_mark (w : Worklist) (o : OpId) (s : Status) : (w.mark o s).stack = w.stack := rfl

@[simp]
theorem stack_settle (w : Worklist) (o : OpId) : (w.settle o).stack = w.stack := by
  unfold settle; split <;> simp

end Worklist

end Peephole
