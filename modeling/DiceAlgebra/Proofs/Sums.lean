import Mathlib.Algebra.BigOperators.Ring.Finset

/-! Sums over a list, written as the folds that the quantities of a pool are: of two lists in a row, and gathered by a
key that the entries have. -/
namespace DiceAlgebra

section Sums

variable {α β κ : Type*}

theorem foldr_add_append [AddMonoid β] (amount : α → β) (as bs : List α) :
    (as ++ bs).foldr (fun a sum => amount a + sum) 0 =
      as.foldr (fun a sum => amount a + sum) 0 + bs.foldr (fun a sum => amount a + sum) 0 := by
  induction as with
  | nil => exact (zero_add _).symm
  | cons a as ih => rw [List.cons_append, List.foldr_cons, List.foldr_cons, ih, add_assoc]

/-- Where each entry is worth its amount times what its key is worth, the amounts can be added up for each key
first. -/
theorem foldr_mul_eq_sum [NonUnitalNonAssocSemiring β] [DecidableEq κ] (key : α → κ) (amount : α → β) (value : κ → β)
    {S : Finset κ} {as : List α} (cover : ∀ a ∈ as, key a ∈ S) :
    as.foldr (fun a sum => amount a * value (key a) + sum) 0 =
      ∑ k ∈ S, as.foldr (fun a sum => (if key a = k then amount a else 0) + sum) 0 * value k := by
  induction as with
  | nil => simp
  | cons a as ih =>
    have here : ∑ k ∈ S, (if key a = k then amount a else 0) * value k = amount a * value (key a) := by
      simp only [ite_mul, zero_mul]
      rw [Finset.sum_ite_eq, if_pos (cover a (List.mem_cons_self ..))]
    simp only [List.foldr_cons, add_mul, Finset.sum_add_distrib, here]
    rw [ih fun b later => cover b (List.mem_cons_of_mem a later)]

end Sums
end DiceAlgebra
