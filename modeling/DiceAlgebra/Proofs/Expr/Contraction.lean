import DiceAlgebra.Proofs.Expr.FlatParts

/-! Contraction keeps the total while the counts are small. Merging the entries of the flat form leaves its tally
alone as long as no count is clamped, and the sizes of the counts tell when that is so. -/
namespace DiceAlgebra.Expr

variable {face : UInt32 → UInt32} {refs : References}

/-- In every largest additive part, the counts of each number of faces add up to a 32-bit number even
without their signs. -/
def CountsFit : Expr → Prop
  | .leaf l => ∀ faces, weight faces l.dice ≤ 2147483647
  | .unary _ x => CountsFit x
  | .binary op a b =>
    if isAdditive (.binary op a b) then
      ∀ faces, weight faces (dice (.binary op a b)) ≤ 2147483647
    else
      CountsFit a ∧ CountsFit b

theorem weight_toPool?_le {e : Expr} {p : Pool} (flat : toPool? e = some p) (faces : UInt32) :
    weight faces p.entries ≤ weight faces (dice e) := by
  induction e generalizing p with
  | leaf l =>
    apply Nat.le_of_eq
    rw [dice_leaf, Leaf.eq_ofList_dice flat, weight_ofList]
  | unary op x ih => cases flat
  | binary op a b iha ihb =>
    rw [dice_binary, weight_append]
    cases op with
    | sum =>
      rcases toPool?_sum_eq_some_iff.mp flat with ⟨q, r, left, right, rfl⟩
      rw [Pool.entries_append, weight_append]
      exact Nat.add_le_add (iha left) (ihb right)
    | difference =>
      rcases toPool?_difference_eq_some_iff.mp flat with ⟨q, r, left, right, rfl⟩
      rw [Pool.entries_append, weight_append, Pool.entries_negated]
      exact Nat.add_le_add (iha left) (Nat.le_trans (weight_map_negated_le faces r.entries) (ihb right))
    | product | fraction | power | min | max => cases flat

theorem tally_toPool? (value : UInt32 → Int) {e : Expr} {p : Pool} (flat : toPool? e = some p)
    (fits : ∀ faces, weight faces (dice e) ≤ 2147483647) :
    tally value p.entries = signedTally value e := by
  induction e generalizing p with
  | leaf l => rw [Leaf.eq_ofList_dice flat, tally_ofList, signedTally]
  | unary op x ih => cases flat
  | binary op a b iha ihb =>
    have both : ∀ faces, weight faces (dice a) + weight faces (dice b) ≤ 2147483647 := by
      intro faces
      rw [← weight_append, ← dice_binary]
      exact fits faces
    have fits_a : ∀ faces, weight faces (dice a) ≤ 2147483647 := fun faces =>
      Nat.le_trans (Nat.le_add_right ..) (both faces)
    have fits_b : ∀ faces, weight faces (dice b) ≤ 2147483647 := fun faces =>
      Nat.le_trans (Nat.le_add_left ..) (both faces)
    cases op with
    | sum =>
      rcases toPool?_sum_eq_some_iff.mp flat with ⟨q, r, left, right, rfl⟩
      rw [Pool.entries_append, tally_append, iha left fits_a, ihb right fits_b, signedTally_sum]
    | difference =>
      rcases toPool?_difference_eq_some_iff.mp flat with ⟨q, r, left, right, rfl⟩
      have light : ∀ faces, weight faces r.entries ≤ 2147483647 := fun faces =>
        Nat.le_trans (weight_toPool?_le right faces) (fits_b faces)
      rw [Pool.entries_append, tally_append, Pool.entries_negated, tally_map_negated _ light,
        iha left fits_a, ihb right fits_b, signedTally_difference, Int.sub_eq_add_neg]
    | product | fraction | power | min | max => cases flat

theorem weight_dice_contract_le (e : Expr) (faces : UInt32) :
    weight faces (dice (contract e)) ≤ weight faces (dice e) := by
  have operand : ∀ {x : Expr}, weight faces (dice (contract x)) ≤ weight faces (dice x) →
      weight faces (dice (contractOperand x)) ≤ weight faces (dice x) := by
    intro x ih
    rw [contractOperand]
    split
    · exact Nat.le_refl _
    · exact ih
  induction e using contraction_induction with
  | additive e p _ flat =>
    rw [contract_eq_pool flat, dice_leaf]
    exact Nat.le_trans (Pool.weight_contract_le faces p) (weight_toPool?_le flat faces)
  | reference name => exact Nat.le_refl _
  | unary op x ih => exact operand ih
  | binary op a b apart iha ihb =>
    rw [contract_binary apart, dice_binary, dice_binary, weight_append, weight_append]
    exact Nat.add_le_add (operand iha) (operand ihb)

theorem contractsExactly_of_weight {x : Expr} (additive : isAdditive x = true)
    (fits : ∀ faces, weight faces (dice x) ≤ 2147483647) : x.ContractsExactly := by
  obtain ⟨p, flat⟩ := exists_toPool? additive
  have light : ∀ faces, weight faces p.entries ≤ 2147483647 := fun faces =>
    Nat.le_trans (weight_toPool?_le flat faces) (fits faces)
  intro faces
  rw [contract_eq_pool flat, dice_leaf, ← tally_toPool? _ flat fits]
  exact Pool.tally_contract _ light

theorem contractsExactly_of_countsFit {e : Expr} (fits : CountsFit e) :
    ∀ x ∈ flatParts e, x.ContractsExactly := by
  induction e with
  | leaf l =>
    by_cases additive : isAdditive (.leaf l) = true
    · rw [flatParts_of_isAdditive additive, List.forall_mem_singleton]
      exact contractsExactly_of_weight additive (by rwa [dice_leaf])
    · rw [flatParts, if_neg additive]
      exact List.forall_mem_nil _
  | unary op x ih => exact ih fits
  | binary op a b iha ihb =>
    rw [CountsFit] at fits
    split at fits
    · next additive =>
      rw [flatParts_of_isAdditive additive, List.forall_mem_singleton]
      exact contractsExactly_of_weight additive fits
    · next apart =>
      rw [flatParts_binary apart]
      exact List.forall_mem_append.mpr ⟨iha fits.1, ihb fits.2⟩

theorem shownValue_contract {e : Expr} (fits : CountsFit e) {v w : Int32}
    (value : shownValue face refs e = some v)
    (contracted : shownValue face refs (contract e) = some w) : v = w :=
  shownValue_contract_of_exact (contractsExactly_of_countsFit fits) value contracted

/-- An expression and its contraction total to the same number whenever both have a total, for any steady
roller in any of its states. -/
theorem evaluate_contract_eq {σ : Type} [Roller σ] {ready : σ → Prop}
    (steady : Roller.Steady face ready) {e : Expr} (fits : CountsFit e) {s s' t t' : σ} {v w : Int32}
    (start : ready s) (start' : ready s') (value : (evaluate refs e).run s = .ok v t)
    (contracted : (evaluate refs (contract e)).run s' = .ok w t') : v = w :=
  shownValue_contract fits (shownValue_of_evaluate steady start value)
    (shownValue_of_evaluate steady start' contracted)

theorem evaluate_contract_cancelled :
    let e : Expr :=
      .binary .max (.binary .difference (.binary .sum (die 6) (num 3)) (die 6)) (ref "STR")
    let refs : References := fun _ => some 2
    CountsFit e ∧ (evaluate refs e).run Source.highest = .ok 3 Source.highest ∧
      (evaluate refs (contract e)).run Source.highest = .ok 3 Source.highest ∧ (3 : Int32) = 3 := by
  intro e refs
  have fits : CountsFit e := by
    refine ⟨fun faces => ?_, fun faces => Nat.zero_le _⟩
    simp only [dice, Formula.leaves, List.cons_append, List.nil_append, List.flatMap_cons, Leaf.dice,
      List.flatMap_nil, weight_cons, weight_nil]
    split <;> split <;> decide
  have value : (evaluate refs e).run Source.highest = .ok 3 Source.highest := rfl
  have contracted : (evaluate refs (contract e)).run Source.highest = .ok 3 Source.highest := rfl
  exact ⟨fits, value, contracted,
    evaluate_contract_eq Source.steady_highest fits rfl rfl value contracted⟩

end DiceAlgebra.Expr
