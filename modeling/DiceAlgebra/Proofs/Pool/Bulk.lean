import DiceAlgebra.Proofs.Pool.Tally
import Mathlib.Algebra.Order.BigOperators.Group.Finset
import Mathlib.Tactic.Ring

/-! Sums that do not look at signs. Where there are fewer dice of each kind, such a sum is smaller, whatever it takes
each kind to be worth, so contraction never adds to it. The distance between the lowest and the highest total of a
pool is one of these sums. Their midpoint is a tally of the counts with their signs, which stays where it is: so
the range of the totals closes in on it from both ends. -/
namespace DiceAlgebra

/-- The dice added up, whatever their signs, each times the value of its faces. -/
def bulk (value : UInt32 → Nat) (ds : List Dice) : Nat :=
  ds.foldr (fun d sum => d.magnitude * value d.faces + sum) 0

@[simp] theorem bulk_nil (value : UInt32 → Nat) : bulk value [] = 0 :=
  rfl

@[simp] theorem bulk_cons (value : UInt32 → Nat) (d : Dice) (ds : List Dice) :
    bulk value (d :: ds) = d.magnitude * value d.faces + bulk value ds :=
  rfl

theorem bulk_append (value : UInt32 → Nat) (ds es : List Dice) :
    bulk value (ds ++ es) = bulk value ds + bulk value es :=
  foldr_add_append (fun d : Dice => d.magnitude * value d.faces) ds es

theorem bulk_eq_zero_iff {value : UInt32 → Nat} {ds : List Dice} :
    bulk value ds = 0 ↔ ∀ d ∈ ds, d.magnitude * value d.faces = 0 := by
  induction ds with
  | nil => simp
  | cons d ds ih => rw [bulk_cons, Nat.add_eq_zero_iff, ih, List.forall_mem_cons]

theorem bulk_eq_sum (value : UInt32 → Nat) {S : Finset UInt32} {ds : List Dice} (cover : ∀ d ∈ ds, d.faces ∈ S) :
    bulk value ds = ∑ faces ∈ S, weight faces ds * value faces :=
  foldr_mul_eq_sum Dice.faces Dice.magnitude value cover

theorem bulk_le_of_weight_le (value : UInt32 → Nat) {ds es : List Dice}
    (lighter : ∀ faces, weight faces ds ≤ weight faces es) : bulk value ds ≤ bulk value es := by
  let S := (ds ++ es).map Dice.faces |>.toFinset
  have cover : ∀ d ∈ ds ++ es, d.faces ∈ S := fun d among => List.mem_toFinset.mpr (List.mem_map_of_mem among)
  rw [bulk_eq_sum value fun d among => cover d (List.mem_append_left _ among),
    bulk_eq_sum value fun d among => cover d (List.mem_append_right _ among)]
  exact Finset.sum_le_sum fun faces _ => Nat.mul_le_mul_right _ (lighter faces)

namespace Dice

variable (d : Dice)

theorem minTotal_add_maxTotal : d.minTotal + d.maxTotal = d.count.toInt * (1 + d.faces.toNat) := by
  rw [minTotal, maxTotal]
  split <;> ring

theorem maxTotal_sub_minTotal : d.maxTotal - d.minTotal = d.magnitude * (d.faces.toNat - 1 : Nat) := by
  have count := d.toInt_count
  rw [minTotal, maxTotal, Int.ofNat_sub d.one_le_toNat_faces]
  split
  · next negative =>
    rw [if_pos negative] at count
    rw [count]
    push_cast
    ring
  · next nonnegative =>
    rw [if_neg nonnegative] at count
    rw [count]
    push_cast
    ring

end Dice

namespace Pool

variable (p : Pool)

theorem minTotal_add_maxTotal : p.minTotal + p.maxTotal = tally (fun faces => 1 + faces.toNat) p.entries := by
  unfold minTotal maxTotal
  induction p.entries with
  | nil => rfl
  | cons d ds ih =>
    have head := d.minTotal_add_maxTotal
    rw [List.foldr_cons, List.foldr_cons, tally_cons, ← ih, ← head]
    omega

theorem maxTotal_sub_minTotal : p.maxTotal - p.minTotal = bulk (fun faces => faces.toNat - 1) p.entries := by
  unfold minTotal maxTotal
  induction p.entries with
  | nil => rfl
  | cons d ds ih =>
    have head := d.maxTotal_sub_minTotal
    rw [List.foldr_cons, List.foldr_cons, bulk_cons, Nat.cast_add, ← ih, Nat.cast_mul, ← head]
    omega

/-- While the counts are small, contraction keeps the expected total, and the totals after it range within those
before it. -/
theorem range_contract {p : Pool} (fits : ∀ faces, weight faces p.entries ≤ 2147483647) :
    p.minTotal + p.maxTotal = p.contract.minTotal + p.contract.maxTotal ∧
      p.minTotal ≤ p.contract.minTotal ∧ p.contract.minTotal ≤ p.contract.maxTotal ∧
        p.contract.maxTotal ≤ p.maxTotal := by
  have midpoint : p.minTotal + p.maxTotal = p.contract.minTotal + p.contract.maxTotal := by
    rw [minTotal_add_maxTotal, minTotal_add_maxTotal, tally_contract _ fits]
  have before := p.maxTotal_sub_minTotal
  have after := p.contract.maxTotal_sub_minTotal
  have narrower : bulk (fun faces => faces.toNat - 1) p.contract.entries ≤
      bulk (fun faces => faces.toNat - 1) p.entries :=
    bulk_le_of_weight_le _ fun faces => weight_contract_le faces p
  omega

theorem range_contract_cancelled :
    let p : Pool := .ofList [.ofParts 3 6, .constant (-4), .ofParts (-2) 6]
    (∀ faces, weight faces p.entries ≤ 2147483647) ∧ p.minTotal = -13 ∧ p.maxTotal = 12 ∧
      p.contract.minTotal = -3 ∧ p.contract.maxTotal = 2 ∧
      p.minTotal + p.maxTotal = p.contract.minTotal + p.contract.maxTotal ∧
      p.minTotal ≤ p.contract.minTotal ∧ p.contract.minTotal ≤ p.contract.maxTotal ∧
        p.contract.maxTotal ≤ p.maxTotal := by
  intro p
  have fits : ∀ faces, weight faces p.entries ≤ 2147483647 := fun faces =>
    Nat.le_trans (weight_le_sum faces p.entries) (by decide)
  exact ⟨fits, by decide, by decide, by decide, by decide, range_contract fits⟩

end Pool
end DiceAlgebra
