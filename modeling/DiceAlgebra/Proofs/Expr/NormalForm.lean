import DiceAlgebra.Proofs.Expr.FlatParts
import DiceAlgebra.Proofs.Pool.Layout

/-! The normal form of contraction. Contraction makes nothing additive that was not, and what was additive stays so:
the largest additive parts keep their places, and each of them comes out as a contracted pool unless it was a bare
operand before. -/
namespace DiceAlgebra.Expr

def isContractedPool : Expr → Bool
  | pool p => p.isContracted
  | _ => false

/-- The largest additive parts are contracted pools, or bare dice and numbers. -/
def HasNormalParts (e : Expr) : Prop :=
  ∀ x ∈ flatParts e, isContractedPool x = true ∨ isBare x = true

/-- A bare die or number may stand below another operation, but not by itself. -/
structure IsNormal (e : Expr) : Prop where
  compound : isBare e = false
  parts : HasNormalParts e

section Steps

variable {op : BinaryOp} {a b x : Expr}

theorem isAdditive_of_isBare (bare : isBare x = true) : isAdditive x = true := by
  cases x with
  | leaf l => cases l <;> first | rfl | cases bare
  | unary op x | binary op a b => cases bare

theorem hasNormalParts_of_isAdditive (additive : isAdditive x = true) :
    HasNormalParts x ↔ isContractedPool x = true ∨ isBare x = true := by
  rw [HasNormalParts, flatParts_of_isAdditive additive, List.forall_mem_singleton]

theorem hasNormalParts_unary (op : UnaryOp) (x : Expr) :
    HasNormalParts (.unary op x) ↔ HasNormalParts x :=
  Iff.rfl

theorem hasNormalParts_binary (apart : ¬ isAdditive (.binary op a b) = true) :
    HasNormalParts (.binary op a b) ↔ HasNormalParts a ∧ HasNormalParts b := by
  rw [HasNormalParts, flatParts_binary apart, List.forall_mem_append, HasNormalParts, HasNormalParts]

end Steps

theorem isBare_contract (e : Expr) : isBare (contract e) = false := by
  cases e using contraction_induction with
  | additive e p _ flat =>
    rw [contract_eq_pool flat]
    rfl
  | reference name => rfl
  | unary op x => rfl
  | binary op a b apart =>
    rw [contract_binary apart]
    rfl

theorem isAdditive_binary_congr (op : BinaryOp) {a b c d : Expr} (left : isAdditive c = isAdditive a)
    (right : isAdditive d = isAdditive b) :
    isAdditive (.binary op c d) = isAdditive (.binary op a b) := by
  cases op with
  | sum | difference => rw [isAdditive, isAdditive, left, right]
  | product | fraction | power | min | max => rfl

theorem isAdditive_contractOperand {x : Expr} (ih : isAdditive (contract x) = isAdditive x) :
    isAdditive (contractOperand x) = isAdditive x := by
  rw [contractOperand]
  split
  · rfl
  · exact ih

theorem isAdditive_contract (e : Expr) : isAdditive (contract e) = isAdditive e := by
  induction e using contraction_induction with
  | additive e p additive flat =>
    rw [contract_eq_pool flat, additive]
    rfl
  | reference name => rfl
  | unary op x ih => rfl
  | binary op a b apart iha ihb =>
    rw [contract_binary apart]
    exact isAdditive_binary_congr op (isAdditive_contractOperand iha) (isAdditive_contractOperand ihb)

theorem hasNormalParts_contractOperand {x : Expr} (ih : HasNormalParts (contract x)) :
    HasNormalParts (contractOperand x) := by
  rw [contractOperand]
  split
  · next bare => exact (hasNormalParts_of_isAdditive (isAdditive_of_isBare bare)).mpr (Or.inr bare)
  · exact ih

theorem hasNormalParts_contract (e : Expr) : HasNormalParts (contract e) := by
  induction e using contraction_induction with
  | additive e p _ flat =>
    rw [contract_eq_pool flat]
    have contracted : p.contract.isContracted = true :=
      Pool.isContracted_iff_descending.mpr (Pool.descending_contract p)
    exact (hasNormalParts_of_isAdditive rfl).mpr (Or.inl contracted)
  | reference name => exact List.forall_mem_nil _
  | unary op x ih => exact hasNormalParts_contractOperand ih
  | binary op a b apart iha ihb =>
    have apart' : ¬ isAdditive (contract (.binary op a b)) = true := by rwa [isAdditive_contract]
    rw [contract_binary apart] at apart' ⊢
    exact (hasNormalParts_binary apart').mpr
      ⟨hasNormalParts_contractOperand iha, hasNormalParts_contractOperand ihb⟩

theorem isNormal_contract (e : Expr) : IsNormal (contract e) :=
  ⟨isBare_contract e, hasNormalParts_contract e⟩

theorem contract_of_isContractedPool {e : Expr} (contracted : isContractedPool e = true) :
    contract e = e := by
  cases e with
  | leaf l =>
    cases l with
    | pool p =>
      exact congrArg pool (Pool.contract_of_descending (Pool.isContracted_iff_descending.mp contracted))
    | die faces | num value | ref name => cases contracted
  | unary op x | binary op a b => cases contracted

theorem contractOperand_of_hasNormalParts {x : Expr} (ih : IsNormal x → contract x = x)
    (parts : HasNormalParts x) : contractOperand x = x := by
  rw [contractOperand]
  split
  · rfl
  · next compound => exact ih ⟨Bool.eq_false_iff.mpr compound, parts⟩

theorem contract_of_isNormal {e : Expr} (normal : IsNormal e) : contract e = e := by
  induction e using contraction_induction with
  | additive e p additive _ =>
    have alone := (hasNormalParts_of_isAdditive additive).mp normal.parts
    exact contract_of_isContractedPool (alone.resolve_right (Bool.eq_false_iff.mp normal.compound))
  | reference name => rfl
  | unary op x ih =>
    have parts := (hasNormalParts_unary op x).mp normal.parts
    rw [contract_unary, contractOperand_of_hasNormalParts ih parts]
  | binary op a b apart iha ihb =>
    have parts := (hasNormalParts_binary apart).mp normal.parts
    rw [contract_binary apart, contractOperand_of_hasNormalParts iha parts.1,
      contractOperand_of_hasNormalParts ihb parts.2]

/-- Contraction is done after one run, and it leaves alone exactly the expressions in normal form. -/
theorem contract_contract_and_eq_self_iff (e : Expr) :
    contract (contract e) = contract e ∧ (contract e = e ↔ IsNormal e) := by
  refine ⟨contract_of_isNormal (isNormal_contract e), ?_, contract_of_isNormal⟩
  intro fixed
  rw [← fixed]
  exact isNormal_contract e

/-- A bare die is contracted by itself and left alone as an operand. -/
example : contract (die 6) = pool (.single (.die 6)) ∧
    contract (.unary .abs (die 6)) = .unary .abs (die 6) := by
  decide

end DiceAlgebra.Expr
