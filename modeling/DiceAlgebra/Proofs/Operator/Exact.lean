import DiceAlgebra.Proofs.Throw.Total

/-! The operations on unbounded integers. A 32-bit operation has a result exactly when the integer
operation is defined and its result fits, and then the two agree. -/
namespace DiceAlgebra

def UnaryOp.exact : UnaryOp → Int → Int
  | abs, v => v.natAbs
  | rolled, v => v

/-- Quotients are cut off toward zero, and a negative exponent asks for the reciprocal of the power. -/
def BinaryOp.exact : BinaryOp → Int → Int → Int
  | sum, v, w => v + w
  | difference, v, w => v - w
  | product, v, w => v * w
  | fraction, v, w => v.tdiv w
  | power, v, w => if 0 ≤ w then Int.pow v w.natAbs else Int.tdiv 1 (Int.pow v w.natAbs)
  | min, v, w => if v ≤ w then v else w
  | max, v, w => if v ≤ w then w else v

/-- Division by zero is ruled out, also where the reciprocal of a power of zero asks for it. -/
def BinaryOp.Defined : BinaryOp → Int → Int → Prop
  | fraction, _, w => w ≠ 0
  | power, v, w => 0 ≤ w ∨ v ≠ 0
  | _, _, _ => True

private theorem pow_eq_pow_mod_two {v : Int} (unit : v.natAbs = 1) (n : Nat) :
    Int.pow v n = Int.pow v (n % 2) := by
  have square : v ^ 2 = 1 := by
    rw [← Int.natAbs_pow_two, unit]
    rfl
  change v ^ n = v ^ (n % 2)
  calc
    v ^ n = v ^ (2 * (n / 2) + n % 2) := by rw [Nat.div_add_mod]
    _ = v ^ (n % 2) := by rw [Int.pow_add, Int.pow_mul, square, Int.one_pow, Int.one_mul]

private theorem natAbs_toInt_le (x : Int32) : x.toInt.natAbs ≤ 2147483648 := by
  have bounds := toInt_bounds x
  rw [Int32.toInt_minValue, Int32.toInt_maxValue] at bounds
  omega

private theorem natAbs_pow_large {v : Int} (large : 2 ≤ v.natAbs) {n : Nat} (many : 32 ≤ n) :
    2147483648 < (Int.pow v n).natAbs := by
  calc
    2147483648 < 2 ^ 32 := by decide
    _ ≤ 2 ^ n := Nat.pow_le_pow_right (by decide) many
    _ ≤ v.natAbs ^ n := Nat.pow_le_pow_left large n
    _ = (v ^ n).natAbs := (Int.natAbs_pow v n).symm

private theorem pow_zero_base {n : Nat} (h : n ≠ 0) : Int.pow 0 n = 0 :=
  Int.zero_pow h

/-- No 32-bit number tells the power with a capped exponent from the power itself. -/
theorem toInt_eq_pow_cappedExponent_iff {v : Int} {n : Nat} {x : Int32} :
    x.toInt = Int.pow v (cappedExponent n) ↔ x.toInt = Int.pow v n := by
  unfold cappedExponent
  by_cases few : n < 32
  · rw [if_pos few]
  rw [if_neg few]
  have bound := natAbs_toInt_le x
  by_cases large : 2 ≤ v.natAbs
  · constructor
    · intro same
      have := natAbs_pow_large large (Nat.le_add_right 32 (n % 2))
      rw [same] at bound
      omega
    · intro same
      have := natAbs_pow_large large (Nat.le_of_not_lt few)
      rw [same] at bound
      omega
  · by_cases zero : v = 0
    · rw [zero, pow_zero_base (by omega), pow_zero_base (by omega)]
    · have unit : v.natAbs = 1 := by omega
      have parity : (32 + n % 2) % 2 = n % 2 := by omega
      rw [pow_eq_pow_mod_two unit (32 + n % 2), parity, ← pow_eq_pow_mod_two unit]

private theorem one_tdiv_pow {v : Int} (unit : v.natAbs = 1) (n : Nat) :
    Int.tdiv 1 (Int.pow v n) = Int.pow v n := by
  have power_unit : (Int.pow v n).natAbs = 1 := by
    change (v ^ n).natAbs = 1
    rw [Int.natAbs_pow, unit, Nat.one_pow]
  rcases Int.natAbs_eq_iff.mp power_unit with one | minus_one
  · rw [one]
    rfl
  · rw [minus_one]
    rfl

private theorem one_tdiv_pow_large {v : Int} (large : 2 ≤ v.natAbs) {n : Nat} (pos : n ≠ 0) :
    Int.tdiv 1 (Int.pow v n) = 0 := by
  have beyond : 1 < (Int.pow v n).natAbs := by
    calc
      1 < 2 ^ n := Nat.one_lt_two_pow pos
      _ ≤ v.natAbs ^ n := Nat.pow_le_pow_left large n
      _ = (v ^ n).natAbs := (Int.natAbs_pow v n).symm
  apply Int.natAbs_eq_zero.mp
  rw [Int.natAbs_tdiv]
  exact Nat.div_eq_of_lt beyond

theorem UnaryOp.apply_eq_ok_iff {op : UnaryOp} {v x : Int32} :
    op.apply v = .ok x ↔ x.toInt = op.exact v.toInt := by
  cases op with
  | abs => exact checked_eq_ok_iff
  | rolled =>
    change Except.ok v = Except.ok x ↔ x.toInt = v.toInt
    rw [Except.ok.injEq, Int32.toInt_inj, eq_comm]

theorem UnaryOp.overflow_of_apply {op : UnaryOp} {v : Int32} {fault : Fault} (failed : op.apply v = .error fault) :
    fault = .overflow := by
  cases op with
  | abs => exact (checked_eq_error_iff.mp failed).2
  | rolled => cases failed

namespace BinaryOp

private theorem power_apply_eq_ok_iff {v w x : Int32} :
    power.apply v w = .ok x ↔
      power.Defined v.toInt w.toInt ∧ x.toInt = power.exact v.toInt w.toInt := by
  have zero_iff : v = 0 ↔ v.toInt = 0 := by
    rw [← Int32.toInt_inj]
    exact Iff.rfl
  simp only [apply, Defined, exact]
  by_cases plain : 0 ≤ w.toInt
  · rw [if_pos (Or.inl plain), if_pos plain, checked_eq_ok_iff]
    simp only [plain, true_or, true_and]
    exact toInt_eq_pow_cappedExponent_iff
  rw [if_neg plain]
  by_cases unit : v.toInt.natAbs = 1
  · have nonzero : v.toInt ≠ 0 := by omega
    rw [if_pos (Or.inr unit), checked_eq_ok_iff, one_tdiv_pow unit]
    simp only [ne_eq, nonzero, not_false_eq_true, or_true, true_and]
    exact toInt_eq_pow_cappedExponent_iff
  rw [if_neg (by simp [plain, unit])]
  by_cases zero : v = 0
  · simp [zero, plain]
  · have nonzero := mt zero_iff.mpr zero
    rw [if_neg zero, one_tdiv_pow_large (by omega) (by omega), Except.ok.injEq, eq_comm,
      ← Int32.toInt_inj]
    simp [nonzero]

theorem apply_eq_ok_iff {op : BinaryOp} {v w x : Int32} :
    op.apply v w = .ok x ↔ op.Defined v.toInt w.toInt ∧ x.toInt = op.exact v.toInt w.toInt := by
  cases op with
  | sum | difference | product =>
    simp only [apply, Defined, exact, checked_eq_ok_iff, true_and]
  | fraction =>
    have zero_iff : w = 0 ↔ w.toInt = 0 := by
      rw [← Int32.toInt_inj]
      exact Iff.rfl
    simp only [apply, Defined, exact]
    by_cases zero : w = 0
    · simp [zero]
    · rw [if_neg zero, checked_eq_ok_iff]
      simp [mt zero_iff.mpr zero]
  | power => exact power_apply_eq_ok_iff
  | min | max =>
    simp only [apply, Defined, exact]
    rw [Except.ok.injEq, eq_comm, ← Int32.toInt_inj, true_and]
    by_cases le : v ≤ w
    · rw [if_pos le, if_pos (Int32.le_iff_toInt_le.mp le)]
    · rw [if_neg le, if_neg (mt Int32.le_iff_toInt_le.mpr le)]

theorem apply_eq_divisionByZero_iff {op : BinaryOp} {v w : Int32} :
    op.apply v w = .error .divisionByZero ↔ ¬ op.Defined v.toInt w.toInt := by
  have zero_iff : ∀ x : Int32, x = 0 ↔ x.toInt = 0 := fun x => Int32.toInt_inj.symm
  cases op with
  | sum | difference | product | min | max => simp [apply, Defined, checked_eq_error_iff]
  | fraction =>
    simp only [apply, Defined, zero_iff]
    split
    · next zero => simp [zero]
    · next nonzero => simp [nonzero, checked_eq_error_iff]
  | power =>
    simp only [apply, Defined, zero_iff, not_or, Decidable.not_not, Int.not_le]
    split
    · next plain =>
      have defined : ¬ (w.toInt < 0 ∧ v.toInt = 0) := by omega
      simp [checked_eq_error_iff, defined]
    · next reciprocal =>
      have negative : w.toInt < 0 := by omega
      split
      · next zero => simp [zero, negative]
      · next nonzero => simp [nonzero]

theorem apply_ne_throwOverflow {op : BinaryOp} {v w : Int32} {t : Throw} :
    op.apply v w ≠ .error (.throwOverflow t) := by
  cases op with
  | sum | difference | product | min | max => simp [apply, checked_eq_error_iff]
  | fraction =>
    simp only [apply]
    split <;> simp [checked_eq_error_iff]
  | power =>
    simp only [apply]
    split
    · simp [checked_eq_error_iff]
    · split <;> simp

end BinaryOp
end DiceAlgebra
