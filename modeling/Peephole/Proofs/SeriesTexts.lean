import Peephole.Circuit
import Peephole.Proofs.RowTexts
import Peephole.Proofs.Series

/-!
# Texts of series

The circuit of a rotation series is built from a text (`RotationSeries.text`): a qubit, the
constants, the rotations, and an end.  The end measures the qubit and returns the bit, and it may
have a branch with one more rotation in it before that.
-/

namespace Peephole

namespace BuildM

/-- A branch has as many results as it is given types. -/
theorem length_of_branch {condition : ValueId} {types : List Ty} {body : BuildM Unit}
    {s s' : BuildState} {o : OpId} {results : List ValueId}
    (h : branch condition types body s = .ok ((o, results), s')) :
    results.length = types.length := by
  rw [branch, get_bind] at h
  obtain ⟨⟨_, built⟩, -, h⟩ := lift_bind_eq_ok.1 h
  obtain ⟨⟨p, g⟩, hclose, h⟩ := lift_bind_eq_ok.1 h
  simp only [set_bind] at h
  obtain ⟨vs, hresults, h⟩ := lift_bind_eq_ok.1 h
  cases h
  simp only [Graph.closeBranch, Graph.appendOp, Peephole.bind_eq_ok] at hclose
  obtain ⟨⟨r, g₁⟩, -, ⟨q, g₂⟩, hnew, g₃, hplace, h⟩ := hclose
  cases h
  obtain ⟨d, B, hd, -, -, rfl⟩ := Graph.placeLast_eq_ok.1 hplace
  simp only [Graph.results, Graph.op_put, Graph.op_newOp hnew, if_true, map_ok, ok_bind] at hresults
  cases hresults
  exact Graph.length_nextValues _

/-- Steps after a branch need to agree only for as many results. -/
theorem branch_bind_congr {α : Type} {condition : ValueId} {types : List Ty} {body : BuildM Unit}
    {f f' : OpId × List ValueId → BuildM α}
    (h : ∀ o results, results.length = types.length → f (o, results) = f' (o, results)) :
    branch condition types body >>= f = branch condition types body >>= f' := by
  funext s
  show (branch condition types body s >>= fun x => f x.1 x.2) =
    branch condition types body s >>= fun x => f' x.1 x.2
  cases hbranch : branch condition types body s with
  | error e => rfl
  | ok x =>
    obtain ⟨⟨o, results⟩, s'⟩ := x
    show f (o, results) s' = f' (o, results) s'
    rw [h o results (length_of_branch hbranch)]

end BuildM

/-! ## Running statements -/

section Statements

variable {n i q : Nat} {known : List ValueId}

theorem build_alloc {rest : Body (n + 2)} : (Body.step .alloc rest : Body (n + 1)).build known =
    BuildM.alloc >>= fun v => rest.build (known ++ [v]) :=
  (bind_assoc _ _ _).trans (congrArg _ (funext fun _ => pure_bind _ _))

theorem build_measure {rest : Body (n + 2)} (hq : q < n + 1) :
    (Body.step (.measure (number n q)) rest : Body (n + 1)).build known =
      BuildM.measure (known.getD q default) >>= fun v => rest.build (known ++ [v]) := by
  rw [← named_number hq]
  exact (bind_assoc _ _ _).trans (congrArg _ (funext fun _ => pure_bind _ _))

theorem build_rotate {axis : Axis} {rest : Body (n + 2)} (hi : i < n + 1) (hq : q < n + 1) :
    (Body.step (.rotate axis (number n i) (number n q)) rest : Body (n + 1)).build known =
      BuildM.rotate axis (known.getD i default) (known.getD q default) >>= fun v =>
        rest.build (known ++ [v]) := by
  rw [← named_number hi, ← named_number hq]
  exact (bind_assoc _ _ _).trans (congrArg _ (funext fun _ => pure_bind _ _))

theorem build_ret (hq : q < n + 1) :
    (Body.step (.ret [number n q]) .done : Body (n + 1)).build known =
      (do let _ ← BuildM.ret [known.getD q default]) := by
  rw [← named_number hq]
  exact (bind_assoc _ _ _).trans rfl

theorem build_yield (hq : q < n + 1) :
    (Body.step (.yield [number n q]) .done : Body (n + 1)).build known =
      (do let _ ← BuildM.yield [known.getD q default]) := by
  rw [← named_number hq]
  exact (bind_assoc _ _ _).trans rfl

theorem build_branch {inner : Body (n + 1)} {rest : Body (n + 2)} (hq : q < n + 1) :
    (Body.branch (number n q) [.qubit] inner rest : Body (n + 1)).build known =
      BuildM.branch (known.getD q default) [.qubit] (inner.build known) >>= fun x =>
        rest.build (known ++ x.2) := by
  rw [← named_number hq]
  rfl

end Statements

/-! ## The text of a series -/

/-- The value with the number `q` is measured, and the bit is returned. -/
def endText (n q : Nat) : Body (n + 1) :=
  .step (.measure (number n q)) (.step (.ret [number (n + 1) (n + 1)]) .done)

/-- The body of a branch: a rotation by the value with the number `i`. -/
def turnedText (axis : Axis) (i n q : Nat) : Body (n + 1) :=
  .step (.rotate axis (number n i) (number n q)) (.step (.yield [number (n + 1) (n + 1)]) .done)

/-- Such a rotation comes before the end, under a branch on the measurement of a second qubit. -/
def branchText (axis : Axis) (i n q : Nat) : Body (n + 1) :=
  .step .alloc (.step (.measure (number (n + 1) (n + 1)))
    (.branch (number (n + 2) (n + 2)) [.qubit] (turnedText axis i (n + 2) q)
      (endText (n + 3) (n + 3))))

namespace RotationSeries

variable (c : RotationSeries)

/-- How many rotations come before the branch, or all of them if there is none. -/
def split : Nat := if c.lastBranched then c.angles.length - 1 else c.angles.length

/-- The axes of these rotations. -/
def axes : List Axis := (List.range' 0 c.split).map c.axisOf

/-- What comes after them. -/
def closing (n q : Nat) : Body (n + 1) :=
  if c.split < c.angles.length then branchText (c.axisOf c.split) (c.split + 1) n q else endText n q

/-- The text of the circuit. -/
def text : Body 0 :=
  .step .alloc (constsText c.angles 0 fun n => turnsText c.axes n 1 0 c.closing)

/-- The steps after the rotations, with the values of all constants. -/
def finish (angles : List ValueId) (q : ValueId) : BuildM Unit := do
  let q ←
    match angles[c.split]? with
    | none => pure q
    | some angle => branchedRotation (c.axisOf c.split) angle q
  let m ← BuildM.measure q
  let _ ← BuildM.ret [m]

theorem split_le : c.split ≤ c.angles.length := by
  rw [split]
  split
  · omega
  · omega

theorem rotations_eq (i : Nat) (angles : List ValueId) (q : ValueId) :
    c.rotations i angles q =
      BuildM.turns (((List.range' i angles.length).map c.axisOf).zip angles) q := by
  induction angles generalizing i q with
  | nil => rfl
  | cons angle angles ih =>
    simp only [rotations, List.length_cons, List.range'_succ, List.map_cons, List.zip_cons_cons,
      BuildM.turns, ih]

theorem build_endText {n q : Nat} {known : List ValueId} (hlen : known.length = n + 1)
    (hq : q < n + 1) : (endText n q).build known = (do
      let m ← BuildM.measure (known.getD q default)
      let _ ← BuildM.ret [m]) := by
  refine (build_measure hq).trans (congrArg _ (funext fun m => ?_))
  refine (build_ret (by omega)).trans ?_
  rw [getD_append_length hlen]

theorem build_turnedText {axis : Axis} {i n q : Nat} {known : List ValueId}
    (hlen : known.length = n + 1) (hi : i < n + 1) (hq : q < n + 1) :
    (turnedText axis i n q).build known = (do
      let q ← BuildM.rotate axis (known.getD i default) (known.getD q default)
      let _ ← BuildM.yield [q]) := by
  refine (build_rotate hi hq).trans (congrArg _ (funext fun v => ?_))
  refine (build_yield (by omega)).trans ?_
  rw [getD_append_length hlen]

theorem build_branchText {axis : Axis} {i n q : Nat} {known : List ValueId}
    (hlen : known.length = n + 1) (hi : i < n + 1) (hq : q < n + 1) :
    (branchText axis i n q).build known = (do
      let q ← branchedRotation axis (known.getD i default) (known.getD q default)
      let m ← BuildM.measure q
      let _ ← BuildM.ret [m]) := by
  have hold : ∀ {j : Nat} {vs : List ValueId}, j < n + 1 →
      (known ++ vs).getD j default = known.getD j default := by
    intro j vs hj
    rw [List.getD_append _ _ _ _ (by omega)]
  rw [branchedRotation, bind_assoc]
  refine build_alloc.trans (congrArg _ (funext fun flag => ?_))
  rw [bind_assoc]
  refine (build_measure (by omega)).trans ?_
  rw [getD_append_length hlen]
  refine congrArg _ (funext fun bit => ?_)
  have hlen₁ : (known ++ [flag]).length = n + 2 := by simp [hlen]
  have hlen₂ : (known ++ [flag] ++ [bit]).length = n + 3 := by simp [hlen]
  rw [bind_assoc]
  refine (build_branch (by omega)).trans ?_
  rw [getD_append_length hlen₁, build_turnedText hlen₂ (by omega) (by omega), List.append_assoc,
    hold hi, hold hq, ← List.append_assoc]
  refine BuildM.branch_bind_congr fun o results hresults => ?_
  obtain ⟨v, rfl⟩ := List.length_eq_one_iff.1 hresults
  have hlen₃ : (known ++ [flag] ++ [bit] ++ [v]).length = n + 3 + 1 := by simp [hlen]
  refine (build_endText hlen₃ (by omega)).trans ?_
  rw [getD_append_length hlen₂]
  rfl

theorem build_closing {angles : List ValueId} (hangles : angles.length = c.angles.length)
    {first : ValueId} {n q : Nat} {known : List ValueId} (hknown : first :: angles <+: known)
    (hlen : known.length = n + 1) (hq : q < n + 1) :
    (c.closing n q).build known = c.finish angles (known.getD q default) := by
  rw [closing, finish]
  split
  · rename_i hlt
    obtain ⟨vs, rfl⟩ := hknown
    have hlt' : c.split < angles.length := hangles ▸ hlt
    have hangle : (first :: angles ++ vs).getD (c.split + 1) default = angles[c.split] := by
      simp [List.getD_eq_getElem?_getD, List.getElem?_append_left hlt',
        List.getElem?_eq_getElem hlt']
    have hi : c.split + 1 < n + 1 := by
      simp at hlen
      omega
    rw [build_branchText hlen hi hq, hangle, List.getElem?_eq_getElem hlt']
  · rename_i hge
    have hnone : angles[c.split]? = none := List.getElem?_eq_none (by omega)
    rw [build_endText hlen hq, hnone]
    rfl

/-- The text runs as the steps of the circuit do. -/
theorem build_text : c.text.build [] = c.body := by
  refine (bind_assoc _ _ _).trans (congrArg _ (funext fun q => ?_))
  refine build_constsText fun angles hangles => ?_
  have hsplit : (if c.lastBranched then angles.length - 1 else angles.length) = c.split := by
    rw [hangles]
    rfl
  have htake : (angles.take c.split).length = c.split := by
    rw [List.length_take, hangles]
    exact Nat.min_eq_left c.split_le
  have hzip : c.axes.zip angles = c.axes.zip (angles.take c.split) := by
    conv_lhs => rw [← List.take_append_drop c.split angles]
    exact zip_append_right (by simp [axes, htake])
  have hlen : (q :: angles).length = 0 + c.angles.length + 1 := by simp [hangles]
  have hroom : 1 + c.axes.length ≤ 0 + c.angles.length + 1 := by
    have hle := c.split_le
    simp [axes]
    omega
  refine (build_turnsText (c.build_closing hangles) (List.prefix_refl _) hlen hroom
    (Nat.succ_pos _)).trans ?_
  have hrotations : c.rotations 0 (angles.take c.split) q =
      BuildM.turns (c.axes.zip (angles.take c.split)) q := by
    rw [rotations_eq, htake]
    rfl
  rw [List.drop_one, List.tail_cons, hzip, hsplit, List.getD_cons_zero, ← hrotations]
  rfl

end RotationSeries

end Peephole
