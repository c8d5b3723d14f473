import Peephole.Graph.Function
import Peephole.Proofs.Programs

/-!
# Histories

The graphs one can come to: from the empty graph, by the calls that make parts, by the
steps that build blocks and functions, and by programs of edits.  A call that is a fault
has no graph after it, and an edit error has.

Blocks and regions may be made with links already in them, and these *presets* are taken
as they are.  Some facts hold of every graph one can come to, and others only if no
presets are used, so `Graph.Reachable` says whether they are.

`Move.keeps` says what one call keeps, and `Reachable.holds` is the one induction over
histories.  Since programs of edits come down to the steps of a session, and building to the
calls that make parts, they ask what the calls of the graph itself keep.
-/

namespace Peephole

/-- Steps that build a block, put together from questions and the steps of `BuildM`. -/
inductive BuildM.Program : {α : Type} → BuildM α → Prop
  | pure {α : Type} (a : α) : Program (pure a)
  | bind {α β : Type} {m : BuildM α} {f : α → BuildM β} :
      Program m → (∀ a, Program (f a)) → Program (m >>= f)
  | ask {α : Type} (question : Graph → Except Fault α) :
      Program (do question (← get).graph : BuildM α)
  | locate (l : Location) : Program (modify fun b => { b with location := l })
  | op (draft : Location → Except Fault Draft) : Program (BuildM.op draft)
  | branch {condition : ValueId} {types : List Ty} {body : BuildM Unit} :
      Program body → Program (BuildM.branch condition types body)

theorem BuildM.Program.single (draft : Location → Except Fault Draft) : (single draft).Program :=
  .bind (.op draft) fun o => .ask fun g => g.result o 0

namespace BuildM

variable {α β : Type} {b b' : BuildState} {c : β}

theorem bind_eq_ok {m : BuildM α} {f : α → BuildM β} :
    (m >>= f) b = .ok (c, b') ↔ ∃ a b₁, m b = .ok (a, b₁) ∧ f a b₁ = .ok (c, b') := by
  show (m b >>= fun x => f x.1 x.2) = .ok (c, b') ↔ _
  simp [Peephole.bind_eq_ok]

theorem lift_bind_eq_ok {x : Except Fault α} {f : α → BuildM β} :
    ((liftM x : BuildM α) >>= f) b = .ok (c, b') ↔ ∃ a, x = .ok a ∧ f a b = .ok (c, b') := by
  cases x with
  | ok a =>
    show f a b = .ok (c, b') ↔ _
    simp
  | error e =>
    show Except.error e = Except.ok (c, b') ↔ _
    simp

theorem get_bind (f : BuildState → BuildM β) : ((get : BuildM BuildState) >>= f) b = f b b := rfl

theorem set_bind (d : BuildState) (f : PUnit → BuildM β) :
    ((set d : BuildM PUnit) >>= f) b = f ⟨⟩ d := rfl

end BuildM

namespace Graph

/-- One call after which there is another graph, with presets or without. -/
inductive Move (presets : Bool) : Graph → Graph → Prop
  | intern {g : Graph} (path : String) : Move presets g (g.intern path).2
  | newOp {g g' : Graph} {d : Draft} {o : OpId} : g.newOp d = .ok (o, g') → Move presets g g'
  | newBlock {g : Graph} (args : List Ty) (l : Location) {ops : List OpId}
      {region : Option RegionId} : presets = true ∨ ops = [] ∧ region = none →
      Move presets g (g.newBlock args l ops region).2
  | newRegion {g g' : Graph} {blocks : List BlockId} {owner : Option OpId} {r : RegionId} :
      presets = true ∨ owner = none → g.newRegion blocks owner = .ok (r, g') → Move presets g g'
  | placeLast {g g' : Graph} {b : BlockId} {o : OpId} :
      g.placeLast b o = .ok g' → Move presets g g'
  | build {α : Type} {m : BuildM α} {b b' : BuildState} {a : α} :
      m.Program → m b = .ok (a, b') → Move presets b.graph b'.graph
  | newFunc {g g' : Graph} {name : String} {args : List Ty} {body : List ValueId → BuildM Unit}
      {o : OpId} : (∀ values, (body values).Program) →
      g.newFunc name args body = .ok (o, g') → Move presets g g'
  | edit {α : Type} {m : EditM α} {s t : Session} {answer : Except EditError α} :
      m.Program (fun _ => True) → m.runOn s = .ok (answer, t) → Move presets s.graph t.graph

/-- The graphs one can come to, with presets or without. -/
def Reachable (presets : Bool) (g : Graph) : Prop := Relation.ReflTransGen (Move presets) .empty g

namespace Reachable

variable {presets : Bool} {g g' : Graph}

theorem empty : Reachable presets .empty := .refl

theorem move (h : g.Reachable presets) (hmove : Move presets g g') : g'.Reachable presets :=
  h.tail hmove

end Reachable

/-- What every change of a graph keeps. -/
structure Kept (P : Graph → Prop) : Prop where
  newOp {g g' : Graph} {d : Draft} {o : OpId} : P g → g.newOp d = .ok (o, g') → P g'
  placeBefore {g g' : Graph} {anchor o : OpId} : P g → g.placeBefore anchor o = .ok g' → P g'
  writeSlot {g g' : Graph} {o : OpId} {i : Nat} {v : ValueId} :
    P g → g.isLive o = .ok true → g.writeSlot o i v = .ok g' → P g'
  redirectUses {g g' : Graph} {old new : ValueId} :
    P g → g.redirectUses old new = .ok g' → P g'
  erase {g g' : Graph} {o : OpId} : P g → g.erase o = .ok g' → P g'

/-- What is kept by every way to go on from a graph. -/
structure Stable (presets : Bool) (P : Graph → Prop) : Prop extends Kept P where
  paths {g : Graph} (paths : Paths) : P g → P { g with paths }
  newBlock {g : Graph} (args : List Ty) (l : Location) {ops : List OpId}
    {region : Option RegionId} : P g → presets = true ∨ ops = [] ∧ region = none →
    P (g.newBlock args l ops region).2
  newRegion {g g' : Graph} {blocks : List BlockId} {owner : Option OpId} {r : RegionId} :
    P g → presets = true ∨ owner = none → g.newRegion blocks owner = .ok (r, g') → P g'
  placeLast {g g' : Graph} {b : BlockId} {o : OpId} : P g → g.placeLast b o = .ok g' → P g'

/-- What holds of the empty graph and is kept by every way to go on from a graph. -/
structure Invariant (presets : Bool) (P : Graph → Prop) : Prop extends Stable presets P where
  empty : P .empty

variable {P : Graph → Prop} {presets : Bool}

theorem Kept.steps {allowed : Draft → Prop} (hP : Kept P) {s t : Session}
    (h : s.Steps allowed t) (hs : P s.graph) : P t.graph := by
  induction h with
  | refl => exact hs
  | tail _ hstep ih =>
    cases hstep with
    | insert _ hnew hplace _ => exact hP.placeBefore (hP.newOp ih hnew) hplace
    | write hlive hw => exact hP.writeSlot ih hlive hw
    | updated _ => exact ih
    | redirect hg _ => exact hP.redirectUses ih hg
    | erase _ _ hg => exact hP.erase ih hg
    | stop => exact ih

namespace Stable

theorem appendOp (hP : Stable presets P) {g g' : Graph} {b : BlockId} {d : Draft} {o : OpId}
    (hg : P g) (h : g.appendOp b d = .ok (o, g')) : P g' := by
  simp only [Graph.appendOp, bind_eq_ok] at h
  obtain ⟨⟨p, g₁⟩, hnew, g₂, hplace, h⟩ := h
  cases h
  exact hP.placeLast (hP.newOp hg hnew) hplace

theorem openBlock (hP : Stable presets P) {g : Graph} (args : List Ty) (l : Location)
    (hg : P g) : P (g.openBlock args l).2.2 := hP.newBlock args l hg (.inr ⟨rfl, rfl⟩)

theorem build (hP : Stable presets P) {α : Type} {m : BuildM α} (hm : m.Program) :
    ∀ {b b' : BuildState} {a : α}, P b.graph → m b = .ok (a, b') → P b'.graph := by
  induction hm with
  | pure a =>
    intro b b' a hb h
    cases h
    exact hb
  | bind _ _ ihm ihf =>
    intro b b' c hb h
    obtain ⟨a, b₁, hm, hf⟩ := BuildM.bind_eq_ok.1 h
    exact ihf a (ihm hb hm) hf
  | @ask α question =>
    intro b b' a hb h
    have h : (question b.graph >>= fun x => .ok (x, b)) = .ok (a, b') := h
    obtain ⟨_, -, h⟩ := bind_eq_ok.1 h
    cases h
    exact hb
  | locate l =>
    intro b b' a hb h
    cases h
    exact hb
  | op draft =>
    intro b b' o hb h
    rw [BuildM.op, BuildM.get_bind] at h
    obtain ⟨d, -, h⟩ := BuildM.lift_bind_eq_ok.1 h
    obtain ⟨⟨p, g⟩, happend, h⟩ := BuildM.lift_bind_eq_ok.1 h
    cases h
    exact hP.appendOp hb happend
  | @branch condition types body _ ih =>
    intro b b' a hb h
    rw [BuildM.branch, BuildM.get_bind] at h
    obtain ⟨⟨_, built⟩, hbody, h⟩ := BuildM.lift_bind_eq_ok.1 h
    obtain ⟨⟨o, g⟩, hclose, h⟩ := BuildM.lift_bind_eq_ok.1 h
    simp only [BuildM.set_bind] at h
    obtain ⟨r, -, h⟩ := BuildM.lift_bind_eq_ok.1 h
    cases h
    simp only [Graph.closeBranch, bind_eq_ok] at hclose
    obtain ⟨⟨r, g₁⟩, hregion, happend⟩ := hclose
    have hbuilt : P built.graph := ih (hP.openBlock [] b.location hb) hbody
    exact hP.appendOp (hP.newRegion hbuilt (.inr rfl) hregion) happend

end Stable

theorem Move.keeps {g g' : Graph} (h : Move presets g g') (hP : Stable presets P) (hg : P g) :
    P g' := by
  cases h with
  | intern path => exact hP.paths _ hg
  | newOp hnew => exact hP.newOp hg hnew
  | newBlock args l hpre => exact hP.newBlock args l hg hpre
  | newRegion hpre hnew => exact hP.newRegion hg hpre hnew
  | placeLast hplace => exact hP.placeLast hg hplace
  | build hm hrun => exact hP.build hm hg hrun
  | @newFunc _ _ name args body o hbody hnew =>
    rw [Graph.newFunc] at hnew
    obtain ⟨⟨_, built⟩, hbuilt, hclose⟩ := bind_eq_ok.1 hnew
    simp only [closeFunc, bind_eq_ok] at hclose
    obtain ⟨⟨r, g₁⟩, hregion, hop⟩ := hclose
    have hopen : P (g.nowhere.2.openBlock args g.nowhere.1).2.2 :=
      hP.openBlock args g.nowhere.1 (hP.paths _ hg)
    exact hP.newOp (hP.newRegion (hP.build (hbody _) hopen hbuilt) (.inr rfl) hregion) hop
  | edit hm hrun => exact hP.toKept.steps (hm.steps hrun) hg

/-- An invariant holds of every graph one can come to. -/
theorem Reachable.holds {g : Graph} (h : Reachable presets g) (hP : Invariant presets P) :
    P g := by
  induction h with
  | refl => exact hP.empty
  | tail _ hmove ih => exact hmove.keeps hP.toStable ih

end Graph

end Peephole
