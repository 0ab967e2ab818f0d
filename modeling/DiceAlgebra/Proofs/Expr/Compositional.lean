import DiceAlgebra.Proofs.Expr.Cancellation
import DiceAlgebra.Proofs.Expr.Contraction
import DiceAlgebra.Proofs.Expr.NormalForm
import DiceAlgebra.Proofs.Formula.Context

/-! Contraction part by part. While the counts are small, an additive expression is contracted to its signed counts
and nothing else: two expressions with the same counts of each number of faces contract alike. Parts that may stand
for one another in this sense may do so at any depth, whatever signs the differences around them give. -/
namespace DiceAlgebra

theorem unclampedSum_countsOf (faces : UInt32) (ds : List Dice) :
    unclampedSum (countsOf faces ds) = tally (indicator faces) ds := by
  induction ds with
  | nil => rfl
  | cons d ds ih =>
    rw [tally_cons, indicator]
    by_cases here : d.faces = faces
    · rw [countsOf_cons_of_eq ds here, unclampedSum_cons, ih, if_pos here, Int.mul_one]
    · rw [countsOf_cons_of_ne ds here, ih, if_neg here, Int.mul_zero, Int.zero_add]

theorem toInt_clampedSum_of_weight {faces : UInt32} {ds : List Dice} (fits : weight faces ds ≤ 2147483647) :
    (clampedSum (countsOf faces ds)).toInt = tally (indicator faces) ds := by
  rw [(reversible_of_weight fits).toInt_clampedSum, unclampedSum_countsOf]

namespace Expr

theorem contract_eq_contract_iff {a b : Expr} (additive_a : isAdditive a = true) (additive_b : isAdditive b = true)
    (fits_a : ∀ faces, weight faces (dice a) ≤ 2147483647)
    (fits_b : ∀ faces, weight faces (dice b) ≤ 2147483647) :
    contract a = contract b ↔ ∀ faces, signedTally (indicator faces) a = signedTally (indicator faces) b := by
  obtain ⟨p, flat_a⟩ := exists_toPool? additive_a
  obtain ⟨q, flat_b⟩ := exists_toPool? additive_b
  rw [contract_eq_pool flat_a, contract_eq_pool flat_b, Formula.leaf.injEq, Leaf.pool.injEq,
    Pool.contract_eq_contract_iff]
  apply forall_congr'
  intro faces
  rw [← tally_toPool? _ flat_a fits_a, ← tally_toPool? _ flat_b fits_b,
    ← toInt_clampedSum_of_weight (Nat.le_trans (weight_toPool?_le flat_a faces) (fits_a faces)),
    ← toInt_clampedSum_of_weight (Nat.le_trans (weight_toPool?_le flat_b faces) (fits_b faces)),
    Int32.toInt_inj]

/-- The second expression may stand for the first one: it is additive where that one is, has the same signed counts
and no more dice. -/
structure StandsFor (s s' : Expr) : Prop where
  additive : isAdditive s' = isAdditive s
  counts : ∀ faces, signedTally (indicator faces) s' = signedTally (indicator faces) s
  lighter : ∀ faces, weight faces (dice s') ≤ weight faces (dice s)

theorem StandsFor.unary (op : UnaryOp) {x y : Expr} (h : StandsFor x y) :
    StandsFor (.unary op x) (.unary op y) :=
  ⟨rfl, h.counts, h.lighter⟩

theorem StandsFor.binary (op : BinaryOp) {a b c d : Expr} (left : StandsFor a c) (right : StandsFor b d) :
    StandsFor (.binary op a b) (.binary op c d) where
  additive := isAdditive_binary_congr op left.additive right.additive
  counts faces := by
    have head := left.counts faces
    have tail := right.counts faces
    cases op with
    | difference => exact congrArg₂ (· - ·) head tail
    | sum | product | fraction | power | min | max => exact congrArg₂ (· + ·) head tail
  lighter faces := by
    rw [dice_binary, dice_binary, weight_append, weight_append]
    exact Nat.add_le_add (left.lighter faces) (right.lighter faces)

theorem StandsFor.refl (s : Expr) : StandsFor s s :=
  ⟨rfl, fun _ => rfl, fun _ => Nat.le_refl _⟩

theorem StandsFor.fill (c : Formula.Context Leaf) {s s' : Expr} (h : StandsFor s s') :
    StandsFor (c.fill s) (c.fill s') :=
  c.fill_congr (fun op _ _ => .unary op) (fun op _ _ b left => left.binary op (.refl b))
    (fun op a _ _ right => (StandsFor.refl a).binary op right) h

theorem standsFor_swap (a b : Expr) : StandsFor (.binary .sum a b) (.binary .sum b a) where
  additive := Bool.and_comm _ _
  counts _ := Int.add_comm _ _
  lighter faces := by
    rw [dice_binary, dice_binary, weight_append, weight_append, Nat.add_comm]

theorem standsFor_contract {s : Expr} (additive : isAdditive s = true)
    (fits : ∀ faces, weight faces (dice s) ≤ 2147483647) : StandsFor s (contract s) where
  additive := isAdditive_contract s
  counts faces := by
    obtain ⟨p, flat⟩ := exists_toPool? additive
    have exact_count := contractsExactly_of_weight additive fits faces
    rw [contract_eq_pool flat] at exact_count ⊢
    rw [← exact_count, dice_leaf, signedTally]
  lighter := weight_dice_contract_le s

theorem contract_fill_of_standsFor {c : Formula.Context Leaf} {s s' : Expr}
    (additive : isAdditive (c.fill s) = true) (fits : ∀ faces, weight faces (dice (c.fill s)) ≤ 2147483647)
    (h : StandsFor s s') : contract (c.fill s') = contract (c.fill s) := by
  have whole := h.fill c
  exact (contract_eq_contract_iff (whole.additive.trans additive) additive
    (fun faces => Nat.le_trans (whole.lighter faces) (fits faces)) fits).mpr whole.counts

theorem isAdditive_of_fill {c : Formula.Context Leaf} {s : Expr} (additive : isAdditive (c.fill s) = true) :
    isAdditive s = true := by
  have operands : ∀ {op : BinaryOp} {a b : Expr}, isAdditive (.binary op a b) = true →
      isAdditive a = true ∧ isAdditive b = true := by
    intro op a b h
    cases op with
    | sum | difference => exact Bool.and_eq_true_iff.mp h
    | product | fraction | power | min | max => cases h
  exact Formula.Context.of_fill (P := fun x : Expr => isAdditive x = true) nofun
    (fun h => (operands h).1) (fun h => (operands h).2) additive

theorem weight_dice_le_of_fill {faces : UInt32} {bound : Nat} {c : Formula.Context Leaf} {s : Expr}
    (fits : weight faces (dice (c.fill s)) ≤ bound) : weight faces (dice s) ≤ bound := by
  have operands : ∀ {op : BinaryOp} {a b : Expr}, weight faces (dice (.binary op a b)) ≤ bound →
      weight faces (dice a) ≤ bound ∧ weight faces (dice b) ≤ bound := by
    intro op a b h
    rw [dice_binary, weight_append] at h
    omega
  exact Formula.Context.of_fill (P := fun x : Expr => weight faces (dice x) ≤ bound) id
    (fun h => (operands h).1) (fun h => (operands h).2) fits

/-- While the counts are small, contracting a part of an additive expression ahead of the whole makes no difference
to what the whole is contracted to, and neither does swapping the operands of a sum in it. -/
theorem contract_part_and_swap {e : Expr} (additive : isAdditive e = true)
    (fits : ∀ faces, weight faces (dice e) ≤ 2147483647) :
    (∀ (c : Formula.Context Leaf) (s : Expr), c.fill s = e → contract (c.fill (contract s)) = contract e) ∧
      ∀ (c : Formula.Context Leaf) (a b : Expr), c.fill (.binary .sum a b) = e →
        contract (c.fill (.binary .sum b a)) = contract e := by
  constructor
  · rintro c s rfl
    have part := standsFor_contract (isAdditive_of_fill additive) fun faces => weight_dice_le_of_fill (fits faces)
    exact contract_fill_of_standsFor additive fits part
  · rintro c a b rfl
    exact contract_fill_of_standsFor additive fits (standsFor_swap a b)

theorem contract_part_and_swap_nested :
    let c : Formula.Context Leaf := .right .difference (pool (.ofList [.ofParts 2 6, .ofParts (-1) 8]))
      (.right .difference (num 3) .hole)
    let a : Expr := .binary .sum (die 8) (die 6)
    let b : Expr := pool (.ofList [.ofParts (-1) 8, .constant 1])
    let e : Expr := c.fill (.binary .sum a b)
    isAdditive e = true ∧ (∀ faces, weight faces (dice e) ≤ 2147483647) ∧
      contract (.binary .sum a b) = pool (.ofList [.ofParts 1 6, .constant 1]) ∧
      contract (c.fill (contract (.binary .sum a b))) = contract e ∧
      contract (c.fill (.binary .sum b a)) = contract e := by
  intro c a b e
  have additive : isAdditive e = true := rfl
  have fits : ∀ faces, weight faces (dice e) ≤ 2147483647 := fun faces =>
    Nat.le_trans (weight_le_sum faces (dice e)) (by decide)
  rcases contract_part_and_swap additive fits with ⟨part, swap⟩
  exact ⟨additive, fits, by decide, part c _ rfl, swap c a b rfl⟩

end Expr
end DiceAlgebra
