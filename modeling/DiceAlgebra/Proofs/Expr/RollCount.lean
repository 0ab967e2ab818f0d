import DiceAlgebra.Proofs.Expr.Contraction
import DiceAlgebra.Proofs.Expr.Recording
import DiceAlgebra.Proofs.Pool.Bulk

/-! How many dice an expression throws. It is a bulk of its dice in which constants are worth nothing, so contraction
throws no more, clamped or not. Nothing is left to chance exactly if nothing is thrown: pools keep no zero counts. -/
namespace DiceAlgebra

def thrownOnce (faces : UInt32) : Nat :=
  if faces = 1 then 0 else 1

theorem Dice.rollCount_eq (d : Dice) : d.rollCount = d.magnitude * thrownOnce d.faces := by
  unfold rollCount thrownOnce
  simp only [isConstant_iff]
  split
  · rw [Nat.mul_zero]
  · rw [Nat.mul_one]

namespace Expr

theorem Leaf.rollCount_eq_bulk (l : Leaf) : l.rollCount = bulk thrownOnce l.dice := by
  cases l with
  | die faces => rw [← rollCount_die, Dice.rollCount_eq, dice, bulk_cons, bulk_nil, Nat.add_zero]
  | num value => rw [rollCount, dice, bulk_cons, bulk_nil, Dice.constant_faces, thrownOnce, if_pos rfl, Nat.mul_zero]
  | ref name => rfl
  | pool p =>
    rw [rollCount, dice, bulk]
    simp only [← Dice.rollCount_eq, Dice.rollCount]

theorem rollCount_eq_bulk (e : Expr) : rollCount e = bulk thrownOnce (dice e) := by
  unfold rollCount dice
  induction e.leaves with
  | nil => rfl
  | cons l ls ih => rw [List.foldr_cons, List.flatMap_cons, bulk_append, ih, l.rollCount_eq_bulk]

theorem Leaf.isDeterministic_iff (l : Leaf) : l.isDeterministic = true ↔ l.rollCount = 0 := by
  cases l with
  | die faces => simp [isDeterministic, rollCount]
  | num value | ref name => exact iff_of_true rfl rfl
  | pool p =>
    rw [rollCount_eq_bulk, dice, bulk_eq_zero_iff, isDeterministic, Pool.isDeterministic, List.all_eq_true]
    refine forall₂_congr fun d member => ?_
    have some_dice : d.magnitude ≠ 0 := fun none =>
      p.count_ne_zero d member (Int32.toInt_inj.mp (Int.natAbs_eq_zero.mp none))
    simp [Dice.isConstant_iff, thrownOnce, some_dice]

theorem isDeterministic_iff (e : Expr) : isDeterministic e = true ↔ rollCount e = 0 := by
  unfold isDeterministic rollCount
  induction e.leaves with
  | nil => exact iff_of_true rfl rfl
  | cons l ls ih =>
    rw [List.all_cons, Bool.and_eq_true, l.isDeterministic_iff, ih, List.foldr_cons, Nat.add_eq_zero_iff]

/-- Contraction never throws more dice, and leaves nothing to chance where nothing was left to it before. -/
theorem rollCount_contract_le (e : Expr) :
    rollCount (contract e) ≤ rollCount e ∧ (isDeterministic e = true → isDeterministic (contract e) = true) := by
  have fewer : rollCount (contract e) ≤ rollCount e := by
    rw [rollCount_eq_bulk, rollCount_eq_bulk]
    exact bulk_le_of_weight_le thrownOnce (weight_dice_contract_le e)
  refine ⟨fewer, fun determined => ?_⟩
  rw [isDeterministic_iff] at determined ⊢
  omega

theorem rollCount_contract_le_clamped :
    let thrown : Expr := .binary .max (die 8)
      (.binary .difference (pool (.ofList [.ofParts 2147483647 6, .ofParts 1 6, .ofParts (-1) 6])) (die 6))
    let fixed : Expr := .unary .abs (.binary .difference (num 5) (pool (.ofList [.constant (-2147483648)])))
    rollCount (contract thrown) = 2147483646 ∧ rollCount thrown = 2147483651 ∧
      rollCount (contract thrown) ≤ rollCount thrown ∧
      isDeterministic fixed = true ∧ isDeterministic (contract fixed) = true := by
  intro thrown fixed
  have determined : isDeterministic fixed = true := by decide
  exact ⟨by decide, by decide, (rollCount_contract_le thrown).1, determined,
    (rollCount_contract_le fixed).2 determined⟩

end Expr
end DiceAlgebra
