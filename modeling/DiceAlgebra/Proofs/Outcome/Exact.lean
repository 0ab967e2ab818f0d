import DiceAlgebra.Proofs.Operator.Exact

/-! What an outcome comes to in unbounded integers. The calculation in 32 bits either agrees with it or fails,
and it fails exactly if some part of the outcome is not defined or not in range. -/
namespace DiceAlgebra

namespace Formula

variable {α : Type}

/-- Every part of a formula, the formula itself included, each after its own operands. -/
def parts : Formula α → List (Formula α)
  | leaf a => [leaf a]
  | unary op x => x.parts ++ [unary op x]
  | binary op a b => a.parts ++ b.parts ++ [binary op a b]

theorem forall_parts_leaf {P : Formula α → Prop} {a : α} :
    (∀ x ∈ (leaf a).parts, P x) ↔ P (leaf a) := by
  simp [parts]

theorem forall_parts_unary {P : Formula α → Prop} {op : UnaryOp} {x : Formula α} :
    (∀ y ∈ (unary op x).parts, P y) ↔ (∀ y ∈ x.parts, P y) ∧ P (unary op x) := by
  rw [parts, List.forall_mem_append, List.forall_mem_singleton]

theorem forall_parts_binary {P : Formula α → Prop} {op : BinaryOp} {a b : Formula α} :
    (∀ y ∈ (binary op a b).parts, P y) ↔
      ((∀ y ∈ a.parts, P y) ∧ ∀ y ∈ b.parts, P y) ∧ P (binary op a b) := by
  rw [parts, List.forall_mem_append, List.forall_mem_append, List.forall_mem_singleton]

end Formula

namespace Outcome

namespace Leaf

def exactValue : Leaf → Int
  | die t => t.exactTotal
  | num v => v.toInt
  | ref _ v => v.toInt
  | pool ts => Throw.exactSum ts

/-- In a pool each throw has to be in range, and so have the sums on the way from the left. -/
def InRange : Leaf → Prop
  | die t => t.InRange
  | num _ | ref _ _ => True
  | pool ts => (∀ t ∈ ts, t.InRange) ∧ ∀ first, first <+: ts → Fits (Throw.exactSum first)

theorem fits_exactValue {l : Leaf} (h : l.InRange) : Fits l.exactValue := by
  cases l with
  | die t => exact Throw.fits_exactTotal h
  | num v | ref name v => exact fits_toInt v
  | pool ts => exact h.2 ts List.prefix_rfl

theorem value_eq_ok_iff_inRange {l : Leaf} {v : Int32} :
    l.value = .ok v ↔ l.InRange ∧ v.toInt = l.exactValue := by
  cases l with
  | die t => exact total_eq_ok_iff
  | num w | ref name w =>
    simp only [value, InRange, exactValue, true_and]
    rw [Except.ok.injEq, Int32.toInt_inj, eq_comm]
  | pool ts =>
    simp only [value, InRange, exactValue, sum_throws_eq_ok_iff, Int32.toInt_zero, Int.zero_add,
      and_assoc]

end Leaf

theorem blame_eq_ok_iff {o : Outcome} {result : Except Fault Int32} {v : Int32} :
    blame o result = .ok v ↔ result = .ok v := by
  cases result <;> simp [blame]

theorem blame_eq_error_iff {o : Outcome} {result : Except Fault Int32} {error : CalcError} :
    blame o result = .error error ↔ ∃ fault, result = .error fault ∧ ⟨o, fault⟩ = error := by
  cases result <;> simp [blame]

theorem value_leaf_eq_ok_iff {l : Leaf} {v : Int32} :
    value (.leaf l) = .ok v ↔ l.value = .ok v := by
  rw [value, blame_eq_ok_iff]

theorem value_unary_eq_ok_iff {op : UnaryOp} {x : Outcome} {v : Int32} :
    value (.unary op x) = .ok v ↔ ∃ w, value x = .ok w ∧ op.apply w = .ok v := by
  rw [value, bind_eq_ok_iff]
  simp only [blame_eq_ok_iff]

theorem value_binary_eq_ok_iff {op : BinaryOp} {a b : Outcome} {v : Int32} :
    value (.binary op a b) = .ok v ↔
      ∃ w₁ w₂, value a = .ok w₁ ∧ value b = .ok w₂ ∧ op.apply w₁ w₂ = .ok v := by
  rw [value, bind_eq_ok_iff]
  simp only [bind_eq_ok_iff, blame_eq_ok_iff, exists_and_left]

/-- The value with no bound on any number on the way. -/
def exactValue : Outcome → Int
  | .leaf l => l.exactValue
  | .unary op x => op.exact (exactValue x)
  | .binary op a b => op.exact (exactValue a) (exactValue b)

/-- The last step of the calculation is defined, and its exact result is a 32-bit number. -/
def StepInRange : Outcome → Prop
  | .leaf l => l.InRange
  | .unary op x => Fits (op.exact (exactValue x))
  | .binary op a b =>
    op.Defined (exactValue a) (exactValue b) ∧ Fits (op.exact (exactValue a) (exactValue b))

theorem fits_exactValue {o : Outcome} (h : StepInRange o) : Fits (exactValue o) := by
  cases o with
  | leaf l => exact Leaf.fits_exactValue h
  | unary op x => exact h
  | binary op a b => exact h.2

theorem inRange_of_value {o : Outcome} {v : Int32} (h : value o = .ok v) :
    (∀ x ∈ o.parts, StepInRange x) ∧ v.toInt = exactValue o := by
  induction o generalizing v with
  | leaf l =>
    have total := Leaf.value_eq_ok_iff_inRange.mp (value_leaf_eq_ok_iff.mp h)
    exact ⟨Formula.forall_parts_leaf.mpr total.1, total.2⟩
  | unary op x ih =>
    rcases value_unary_eq_ok_iff.mp h with ⟨w, operand, applied⟩
    rcases ih operand with ⟨below, w_eq⟩
    have v_eq := UnaryOp.apply_eq_ok_iff.mp applied
    rw [w_eq] at v_eq
    have step : Fits (op.exact (exactValue x)) := v_eq ▸ fits_toInt v
    exact ⟨Formula.forall_parts_unary.mpr ⟨below, step⟩, v_eq⟩
  | binary op a b iha ihb =>
    rcases value_binary_eq_ok_iff.mp h with ⟨w₁, w₂, left, right, applied⟩
    rcases iha left with ⟨below_a, w₁_eq⟩
    rcases ihb right with ⟨below_b, w₂_eq⟩
    have result := BinaryOp.apply_eq_ok_iff.mp applied
    rw [w₁_eq, w₂_eq] at result
    have step : StepInRange (.binary op a b) := ⟨result.1, result.2 ▸ fits_toInt v⟩
    exact ⟨Formula.forall_parts_binary.mpr ⟨⟨below_a, below_b⟩, step⟩, result.2⟩

theorem exists_value {o : Outcome} (h : ∀ x ∈ o.parts, StepInRange x) : ∃ v, value o = .ok v := by
  induction o with
  | leaf l =>
    have step := Formula.forall_parts_leaf.mp h
    obtain ⟨v, v_eq⟩ := exists_toInt_eq (fits_exactValue step)
    exact ⟨v, value_leaf_eq_ok_iff.mpr (Leaf.value_eq_ok_iff_inRange.mpr ⟨step, v_eq⟩)⟩
  | unary op x ih =>
    rcases Formula.forall_parts_unary.mp h with ⟨below, step⟩
    obtain ⟨w, operand⟩ := ih below
    obtain ⟨v, v_eq⟩ := exists_toInt_eq (fits_exactValue step)
    have applied : op.apply w = .ok v :=
      UnaryOp.apply_eq_ok_iff.mpr ((inRange_of_value operand).2 ▸ v_eq)
    exact ⟨v, value_unary_eq_ok_iff.mpr ⟨w, operand, applied⟩⟩
  | binary op a b iha ihb =>
    rcases Formula.forall_parts_binary.mp h with ⟨⟨below_a, below_b⟩, step⟩
    obtain ⟨w₁, left⟩ := iha below_a
    obtain ⟨w₂, right⟩ := ihb below_b
    obtain ⟨v, v_eq⟩ := exists_toInt_eq (fits_exactValue step)
    have applied : op.apply w₁ w₂ = .ok v := by
      rw [BinaryOp.apply_eq_ok_iff, (inRange_of_value left).2, (inRange_of_value right).2]
      exact ⟨step.1, v_eq⟩
    exact ⟨v, value_binary_eq_ok_iff.mpr ⟨w₁, w₂, left, right, applied⟩⟩

/-- A calculation has a result exactly if every part of the outcome is defined and in range, and then the result
is the exact one. -/
theorem value_eq_ok_iff {o : Outcome} {v : Int32} :
    o.value = .ok v ↔ (∀ x ∈ o.parts, StepInRange x) ∧ v.toInt = o.exactValue := by
  constructor
  · exact inRange_of_value
  · rintro ⟨sound, v_eq⟩
    obtain ⟨w, total⟩ := exists_value sound
    have same : v = w := Int32.toInt_inj.mp (v_eq.trans (inRange_of_value total).2.symm)
    rw [same, total]

/-- The lowest number is a power of -2, and its reciprocal is cut off to zero. -/
example : Outcome.value (.binary .power (num (-2)) (num 31)) = .ok (-2147483648) ∧
    Outcome.value (.binary .power (num (-2)) (num (-31))) = .ok 0 :=
  ⟨rfl, rfl⟩

end Outcome
end DiceAlgebra
