import DiceAlgebra.Proofs.Expr.Additive
import DiceAlgebra.Proofs.Expr.ShownValue

/-! The additive parts of an expression, one by one. Such a part totals to its dice under the signs that the
differences give them. Contraction keeps that total if it gives each number of faces its exact count, and with
it the total of everything around. -/
namespace DiceAlgebra

def indicator (faces : UInt32) : UInt32 → Int :=
  fun shown => if shown = faces then 1 else 0

theorem tally_eq_sum (value : UInt32 → Int) {S : Finset UInt32} {ds : List Dice}
    (cover : ∀ d ∈ ds, d.faces ∈ S) :
    tally value ds = ∑ faces ∈ S, tally (indicator faces) ds * value faces := by
  simp only [tally, indicator, mul_ite, mul_one, mul_zero]
  exact foldr_mul_eq_sum Dice.faces (fun d => d.count.toInt) value cover

namespace Expr

variable {face : UInt32 → UInt32} {refs : References}

def dice (e : Expr) : List Dice :=
  e.leaves.flatMap Leaf.dice

theorem dice_binary (op : BinaryOp) (a b : Expr) :
    dice (.binary op a b) = dice a ++ dice b := by
  rw [dice, Formula.leaves, List.flatMap_append, dice, dice]

theorem dice_leaf (l : Leaf) : dice (.leaf l) = l.dice := by
  rw [dice, Formula.leaves, List.flatMap_cons, List.flatMap_nil, List.append_nil]

theorem Leaf.eq_ofList_dice {l : Leaf} {p : Pool} (flat : l.toPool? = some p) :
    p = Pool.ofList l.dice := by
  cases l with
  | ref name => cases flat
  | pool q =>
    cases flat
    exact (Pool.ofList_entries p).symm
  | die n =>
    cases flat
    rfl
  | num value =>
    cases flat
    rfl

/-- The dice of an additive expression added up, those below the right side of a difference with their signs
turned. -/
def signedTally (value : UInt32 → Int) : Expr → Int
  | .leaf l => tally value l.dice
  | .unary _ x => signedTally value x
  | .binary .difference a b => signedTally value a - signedTally value b
  | .binary _ a b => signedTally value a + signedTally value b

theorem signedTally_sum (value : UInt32 → Int) (a b : Expr) :
    signedTally value (.binary .sum a b) = signedTally value a + signedTally value b :=
  rfl

theorem signedTally_difference (value : UInt32 → Int) (a b : Expr) :
    signedTally value (.binary .difference a b) = signedTally value a - signedTally value b :=
  rfl

/-- The largest additive parts, from left to right. -/
def flatParts : Expr → List Expr
  | .leaf l => if isAdditive (.leaf l) then [.leaf l] else []
  | .unary _ x => flatParts x
  | .binary op a b => if isAdditive (.binary op a b) then [.binary op a b] else flatParts a ++ flatParts b

theorem flatParts_of_isAdditive {x : Expr} (additive : isAdditive x = true) : flatParts x = [x] := by
  cases x with
  | leaf l => exact if_pos additive
  | unary op x => cases additive
  | binary op a b => exact if_pos additive

theorem flatParts_binary {op : BinaryOp} {a b : Expr} (apart : ¬ isAdditive (.binary op a b) = true) :
    flatParts (.binary op a b) = flatParts a ++ flatParts b :=
  if_neg apart

/-- No count is clamped on the way: for each number of faces, contraction comes to the exact count. -/
def ContractsExactly (x : Expr) : Prop :=
  ∀ faces, tally (indicator faces) (dice (contract x)) = signedTally (indicator faces) x

theorem signedTally_eq_sum (value : UInt32 → Int) {S : Finset UInt32} {e : Expr}
    (cover : ∀ d ∈ dice e, d.faces ∈ S) :
    signedTally value e = ∑ faces ∈ S, signedTally (indicator faces) e * value faces := by
  induction e with
  | leaf l =>
    rw [dice_leaf] at cover
    exact tally_eq_sum value cover
  | unary op x ih => exact ih cover
  | binary op a b iha ihb =>
    rw [dice_binary] at cover
    have left := iha fun d among => cover d (List.mem_append_left _ among)
    have right := ihb fun d among => cover d (List.mem_append_right _ among)
    cases op with
    | difference => simp only [signedTally, sub_mul, Finset.sum_sub_distrib, ← left, ← right]
    | sum | product | fraction | power | min | max =>
      simp only [signedTally, add_mul, Finset.sum_add_distrib, ← left, ← right]

theorem tally_contract_of_exact {x : Expr} (exact : x.ContractsExactly) (value : UInt32 → Int) :
    tally value (dice (contract x)) = signedTally value x := by
  let S := (dice (contract x) ++ dice x).map Dice.faces |>.toFinset
  have cover : ∀ d ∈ dice (contract x) ++ dice x, d.faces ∈ S := fun d among =>
    List.mem_toFinset.mpr (List.mem_map_of_mem among)
  rw [tally_eq_sum value fun d among => cover d (List.mem_append_left _ among),
    signedTally_eq_sum value fun d among => cover d (List.mem_append_right _ among)]
  simp only [exact _]

theorem toInt_shownValue_of_additive {e : Expr} (additive : isAdditive e = true) {v : Int32}
    (value : shownValue face refs e = some v) : v.toInt = signedTally (faceValue face) e := by
  induction e generalizing v with
  | leaf l =>
    rcases shownValue_leaf.mp value with ⟨o, shown, total⟩
    have known : ∀ name, l ≠ .ref name := by
      rintro name rfl
      cases additive
    exact toInt_value_of_shown known shown total
  | unary op x ih => cases additive
  | binary op a b iha ihb =>
    rcases shownValue_binary.mp value with ⟨w₁, w₂, value_a, value_b, applied⟩
    cases op with
    | sum =>
      rcases Bool.and_eq_true_iff.mp additive with ⟨additive_a, additive_b⟩
      rw [checked_eq_ok_iff.mp applied, iha additive_a value_a, ihb additive_b value_b, signedTally_sum]
    | difference =>
      rcases Bool.and_eq_true_iff.mp additive with ⟨additive_a, additive_b⟩
      rw [checked_eq_ok_iff.mp applied, iha additive_a value_a, ihb additive_b value_b,
        signedTally_difference]
    | product | fraction | power | min | max => cases additive

/-- Every flat sum in the expression has a total of its own. -/
def PoolsTotal (face : UInt32 → UInt32) (refs : References) (e : Expr) : Prop :=
  ∀ p, .pool p ∈ e.leaves → ∃ w, shownValue face refs (pool p) = some w

theorem exists_shownValue_contract {x : Expr} (additive : isAdditive x = true)
    (totals : PoolsTotal face refs (contract x)) : ∃ w, shownValue face refs (contract x) = some w := by
  obtain ⟨p, flat⟩ := exists_toPool? additive
  rw [contract_eq_pool flat] at totals ⊢
  exact totals _ (List.mem_singleton_self _)

theorem shownValue_contract_of_additive {x : Expr} (additive : isAdditive x = true)
    (exact : x.ContractsExactly) (totals : PoolsTotal face refs (contract x)) {v : Int32}
    (value : shownValue face refs x = some v) : shownValue face refs (contract x) = some v := by
  obtain ⟨w, contracted⟩ := exists_shownValue_contract additive totals
  obtain ⟨p, flat⟩ := exists_toPool? additive
  have same : w.toInt = v.toInt := by
    rw [toInt_shownValue_of_additive additive value, ← tally_contract_of_exact exact]
    rw [contract_eq_pool flat] at contracted ⊢
    rcases shownValue_leaf.mp contracted with ⟨o, shown, total⟩
    rw [toInt_value_of_shown (by simp) shown total, dice_leaf]
  rw [contracted, Int32.toInt_inj.mp same]

theorem shownValue_contractOperand {x : Expr} {v : Int32}
    (ih : PoolsTotal face refs (contract x) → shownValue face refs (contract x) = some v)
    (totals : PoolsTotal face refs (contractOperand x)) (value : shownValue face refs x = some v) :
    shownValue face refs (contractOperand x) = some v := by
  rw [contractOperand] at totals ⊢
  split
  · exact value
  · next compound =>
    rw [if_neg compound] at totals
    exact ih totals

theorem shownValue_contract_of_totals {e : Expr} (exact : ∀ x ∈ flatParts e, x.ContractsExactly)
    (totals : PoolsTotal face refs (contract e)) {v : Int32}
    (value : shownValue face refs e = some v) : shownValue face refs (contract e) = some v := by
  induction e using contraction_induction generalizing v with
  | additive e p additive _ =>
    rw [flatParts_of_isAdditive additive, List.forall_mem_singleton] at exact
    exact shownValue_contract_of_additive additive exact totals value
  | reference name => exact value
  | unary op x ih =>
    rcases shownValue_unary.mp value with ⟨v', value_x, applied⟩
    rw [contract_unary] at totals ⊢
    exact shownValue_unary.mpr
      ⟨v', shownValue_contractOperand (fun below => ih exact below value_x) totals value_x, applied⟩
  | binary op a b apart iha ihb =>
    rw [flatParts_binary apart] at exact
    rw [contract_binary apart] at totals ⊢
    rcases List.forall_mem_append.mp exact with ⟨exact_a, exact_b⟩
    rcases shownValue_binary.mp value with ⟨v₁, v₂, value_a, value_b, applied⟩
    have left := shownValue_contractOperand (fun below => iha exact_a below value_a)
      (fun p member => totals p (List.mem_append_left _ member)) value_a
    have right := shownValue_contractOperand (fun below => ihb exact_b below value_b)
      (fun p member => totals p (List.mem_append_right _ member)) value_b
    exact shownValue_binary.mpr ⟨v₁, v₂, left, right, applied⟩

theorem shownValue_contract_of_exact {e : Expr} (exact : ∀ x ∈ flatParts e, x.ContractsExactly)
    {v w : Int32} (value : shownValue face refs e = some v)
    (contracted : shownValue face refs (contract e) = some w) : v = w := by
  have kept := shownValue_contract_of_totals exact
    (fun p member => exists_shownValue_leaf contracted _ member) value
  rw [contracted] at kept
  exact (Option.some.inj kept).symm

end Expr
end DiceAlgebra
