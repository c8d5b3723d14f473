import Mathlib.Data.List.GetD
import Peephole.Proofs.Construction
import Peephole.Proofs.Rows

/-!
# Texts of rotations

A program that puts rotations on one qubit, by angles that are known before, is written down as a
text here (`turnsText`), and so is one that makes constants (`constsText`).  Both are given the
text that comes after them, with the number of values that are known by then.

For each of the two there is a lemma that the text runs as the program does, and one that finds
its operations in a function that has been built from it.
-/

namespace Peephole

/-- Rotations of one qubit, one after the other. -/
def BuildM.turns : List (Axis × ValueId) → ValueId → BuildM ValueId
  | [], q => return q
  | (axis, angle) :: rest, q => do
      let q ← rotate axis angle q
      turns rest q

/-! ## Numbers -/

/-- The number of a value, where one more than `n` values are known. -/
def number (n i : Nat) : Fin (n + 1) := Fin.ofNat (n + 1) i

theorem named_number {known : List ValueId} {n i : Nat} (hi : i < n + 1) :
    named known (number n i) = known.getD i default := by
  simp [named, number, Nat.mod_eq_of_lt hi]

theorem getD_append_length {known : List ValueId} {v : ValueId} {n : Nat}
    (h : known.length = n) : (known ++ [v]).getD n default = v := by
  simp [List.getD_eq_getElem?_getD, ← h]

/-- Values that come after those that are paired do not matter. -/
theorem zip_append_right {α : Type} {axes : List α} {l vs : List ValueId}
    (h : axes.length ≤ l.length) : axes.zip (l ++ vs) = axes.zip l := by
  induction axes generalizing l with
  | nil => rfl
  | cons axis axes ih =>
    cases l with
    | nil => cases h
    | cons v l =>
      rw [List.cons_append, List.zip_cons_cons, List.zip_cons_cons,
        ih (Nat.le_of_succ_le_succ h)]

/-! ## Texts -/

/-- Rotations about the axes, by the values with the numbers from `i` on.  The first is on the
value with the number `q`. -/
def turnsText : List Axis → (n i q : Nat) → ((n q : Nat) → Body (n + 1)) → Body (n + 1)
  | [], n, _, q, rest => rest n q
  | axis :: axes, n, i, q, rest =>
      .step (.rotate axis (number n i) (number n q)) (turnsText axes (n + 1) (i + 1) (n + 1) rest)

/-- Constants. -/
def constsText : List Binary64 → (n : Nat) → ((n : Nat) → Body (n + 1)) → Body (n + 1)
  | [], n, rest => rest n
  | x :: xs, n, rest => .step (.const x) (constsText xs (n + 1) rest)

theorem build_turnsText {known₀ : List ValueId} {rest : (n q : Nat) → Body (n + 1)}
    {body : ValueId → BuildM Unit}
    (hrest : ∀ {n q known}, known₀ <+: known → known.length = n + 1 → q < n + 1 →
      (rest n q).build known = body (known.getD q default)) :
    ∀ {axes : List Axis} {n i q : Nat} {known : List ValueId}, known₀ <+: known →
      known.length = n + 1 → i + axes.length ≤ n + 1 → q < n + 1 →
      (turnsText axes n i q rest).build known =
        BuildM.turns (axes.zip (known.drop i)) (known.getD q default) >>= body := by
  intro axes
  induction axes with
  | nil =>
    intro n i q known hknown hlen hi hq
    rw [List.zip_nil_left, BuildM.turns, pure_bind]
    exact hrest hknown hlen hq
  | cons axis axes ih =>
    intro n i q known hknown hlen hi hq
    rw [List.length_cons] at hi
    have hdrop : known.drop i = known.getD i default :: known.drop (i + 1) := by
      have hlt : i < known.length := by omega
      rw [List.drop_eq_getElem_cons hlt, List.getD_eq_getElem _ _ hlt]
    have hangle : named known (number n i) = known.getD i default := named_number (by omega)
    have hqubit : named known (number n q) = known.getD q default := named_number hq
    rw [hdrop, List.zip_cons_cons, BuildM.turns, bind_assoc, ← hangle, ← hqubit]
    refine (bind_assoc _ _ _).trans (congrArg _ (funext fun v => ?_))
    have hnext : axes.zip ((known ++ [v]).drop (i + 1)) = axes.zip (known.drop (i + 1)) := by
      rw [List.drop_append_of_le_length (by omega)]
      exact zip_append_right (by rw [List.length_drop]; omega)
    have hlen' : (known ++ [v]).length = n + 1 + 1 := by simp [hlen]
    have hih := ih (hknown.trans (List.prefix_append known [v])) hlen' (i := i + 1) (q := n + 1)
      (by omega) (by omega)
    rw [hnext, getD_append_length hlen] at hih
    exact hih

theorem build_constsText {rest : (n : Nat) → Body (n + 1)} :
    ∀ {xs : List Binary64} {n : Nat} {known : List ValueId} {body : List ValueId → BuildM Unit},
      (∀ vs, vs.length = xs.length → (rest (n + xs.length)).build (known ++ vs) = body vs) →
      (constsText xs n rest).build known = xs.mapM BuildM.const >>= body := by
  intro xs
  induction xs with
  | nil =>
    intro n known body hrest
    have hnil := hrest [] rfl
    rw [List.append_nil] at hnil
    exact hnil
  | cons x xs ih =>
    intro n known body hrest
    rw [List.mapM_cons, bind_assoc]
    refine (bind_assoc _ _ _).trans (congrArg _ (funext fun v => ?_))
    rw [bind_assoc]
    simp only [pure_bind]
    refine ih fun vs hvs => ?_
    have hcons := hrest (v :: vs) (by simp [hvs])
    rw [List.length_cons, List.append_cons] at hcons
    rw [← hcons, Nat.add_right_comm n 1]
    rfl

/-- A function is built from what its body does with as many values as it has arguments. -/
theorem Graph.newFunc_congr {g : Graph} {name : String} {args : List Ty}
    {body body' : List ValueId → BuildM Unit}
    (h : ∀ vs, vs.length = args.length → body vs = body' vs) :
    g.newFunc name args body = g.newFunc name args body' := by
  obtain ⟨l, g₀, hnowhere⟩ : ∃ l g₀, g.nowhere = (l, g₀) := ⟨_, _, rfl⟩
  have hB := block_newBlock g₀ args l [] none ⟨g₀.blocks.size⟩
  rw [if_pos rfl] at hB
  have hargs : (g₀.newBlock args l).2.blockArgs ⟨g₀.blocks.size⟩ = g₀.nextValues args.length := by
    simp only [blockArgs, block_eq_ok.1 hB]
  rw [newFunc, newFunc, hnowhere]
  show (body ((g₀.newBlock args l).2.blockArgs ⟨g₀.blocks.size⟩)
    ⟨(g₀.newBlock args l).2, ⟨g₀.blocks.size⟩, l⟩ >>= _) = _
  rw [h _ ((congrArg List.length hargs).trans (length_nextValues _))]
  rfl

/-! ## Operations of a text -/

namespace Graph

variable {g : Graph} {m : Nat} {b : BlockId}

/-- A statement with one result. -/
theorem Laid.single {n : Nat} {known : List ValueId} {s : Statement n}
    {rest : Body (n + s.types.length)} {top ops : List OpId}
    (h : Laid g m b (.step s rest) known top ops) (hs : s.types.length = 1) :
    ∃ o v l top' ops', top = o :: top' ∧ ops = o :: ops' ∧ m ≤ v.index ∧
      g.op o = .ok (((s.draft known l).made [v]).inBlock b) ∧
      Laid g m b rest (known ++ [v]) top' ops' := by
  cases h with
  | @step _ _ _ _ _ vs l o top' ops' hd hvs hrest =>
    obtain ⟨v, rfl⟩ := List.length_eq_one_iff.1 (hvs.length.trans hs)
    exact ⟨o, v, l, top', ops', rfl, rfl, hvs.new v (.head _), hd, hrest⟩

/-- The rotations of a text make a row, and each has its own angle. -/
theorem Laid.turns {β : Type*} (f : Axis × ValueId → β) {rest : (n q : Nat) → Body (n + 1)} :
    ∀ {axes : List Axis} {n i q : Nat} {known : List ValueId} {top ops : List OpId},
      Laid g m b (turnsText axes n i q rest) known top ops → known.length = n + 1 →
      i + axes.length ≤ n + 1 → q < n + 1 →
      ∃ (row : List (Link (List β))) (q' : Nat) (vs : List ValueId) (top' ops' : List OpId),
        Laid g m b (rest (n + axes.length) q') (known ++ vs) top' ops' ∧
        top = row.map Link.op ++ top' ∧ ops = row.map Link.op ++ ops' ∧
        vs.length = axes.length ∧ q' < n + axes.length + 1 ∧
        g.Row (known.getD q default) row ((known ++ vs).getD q' default) ∧
        row.map Link.axis = axes ∧
        row.map Link.angle = (axes.zip (known.drop i)).map (fun t => [f t]) ∧
        ∀ x ∈ row, ∃ a u v, x.angle = [f (x.axis, a)] ∧ m ≤ v.index ∧
          g.Computes x.op (.rotation x.axis a u) v := by
  intro axes
  induction axes with
  | nil =>
    intro n i q known top ops h hlen hi hq
    exact ⟨[], q, [], top, ops, by simpa [turnsText] using h, rfl, rfl, rfl, hq,
      by simpa using .nil, rfl, rfl, nofun⟩
  | cons axis axes ih =>
    intro n i q known top ops h hlen hi hq
    rw [List.length_cons] at hi
    obtain ⟨o, v, l, top₁, ops₁, rfl, rfl, hv, hd, hrest⟩ := Laid.single h rfl
    have hlen' : (known ++ [v]).length = n + 1 + 1 := by simp [hlen]
    obtain ⟨row, q', vs, top', ops', hlaid, rfl, rfl, hvs, hq', hrow, haxes, hangles, heach⟩ :=
      ih hrest hlen' (by omega) (by omega)
    have hi' : i < known.length := by omega
    have hnext : axes.zip ((known ++ [v]).drop (i + 1)) = axes.zip (known.drop (i + 1)) := by
      rw [List.drop_append_of_le_length (by omega)]
      exact zip_append_right (by rw [List.length_drop]; omega)
    have hf : g.Computes o (.rotation axis (known.getD i default) (known.getD q default)) v := by
      rw [← named_number (n := n) (by omega), ← named_number hq]
      exact ⟨_, hd, rfl, rfl, rfl⟩
    rw [getD_append_length hlen, List.append_assoc, List.singleton_append] at hrow
    rw [List.append_assoc, List.singleton_append, Nat.add_right_comm n 1] at hlaid
    rw [hnext] at hangles
    refine ⟨⟨o, axis, [f (axis, known.getD i default)]⟩ :: row, q', v :: vs, top', ops', hlaid, rfl,
      rfl, by simp [hvs], by simp; omega, .cons hf hrow, by simp [haxes], ?_, ?_⟩
    · rw [List.drop_eq_getElem_cons hi', List.zip_cons_cons, List.map_cons, List.map_cons, hangles,
        List.getD_eq_getElem _ _ hi']
    · exact List.forall_mem_cons.2 ⟨⟨_, _, v, rfl, hv, hf⟩, heach⟩

/-- The constants of a text, each with its number and its value. -/
theorem Laid.consts {rest : (n : Nat) → Body (n + 1)} :
    ∀ {xs : List Binary64} {n : Nat} {known : List ValueId} {top ops : List OpId},
      Laid g m b (constsText xs n rest) known top ops →
      ∃ (made : List (OpId × Binary64 × ValueId)) (top' ops' : List OpId),
        Laid g m b (rest (n + xs.length)) (known ++ made.map (·.2.2)) top' ops' ∧
        top = made.map (·.1) ++ top' ∧ ops = made.map (·.1) ++ ops' ∧ made.map (·.2.1) = xs ∧
        ∀ t ∈ made, g.Computes t.1 (.const t.2.1) t.2.2 := by
  intro xs
  induction xs with
  | nil =>
    intro n known top ops h
    exact ⟨[], top, ops, by simpa [constsText] using h, rfl, rfl, rfl, nofun⟩
  | cons x xs ih =>
    intro n known top ops h
    obtain ⟨o, v, l, top₁, ops₁, rfl, rfl, -, hd, hrest⟩ := Laid.single h rfl
    obtain ⟨made, top', ops', hlaid, rfl, rfl, hxs, heach⟩ := ih hrest
    rw [List.append_assoc, List.singleton_append, Nat.add_right_comm n 1] at hlaid
    exact ⟨(o, x, v) :: made, top', ops', hlaid, rfl, rfl, by simp [hxs],
      List.forall_mem_cons.2 ⟨⟨_, hd, rfl, rfl, rfl⟩, heach⟩⟩

end Graph

end Peephole
