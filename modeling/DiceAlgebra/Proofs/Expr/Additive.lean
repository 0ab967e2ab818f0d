import DiceAlgebra.Expr.Contract

/-! The additive part of the language: dice, numbers and flat sums under sums and differences. -/
namespace DiceAlgebra.Expr

def isAdditive : Expr → Bool
  | .leaf (.ref _) => false
  | .leaf _ => true
  | .binary .sum a b => isAdditive a && isAdditive b
  | .binary .difference a b => isAdditive a && isAdditive b
  | _ => false

theorem isSome_toPool? (e : Expr) : (toPool? e).isSome = isAdditive e := by
  induction e with
  | leaf l => cases l <;> rfl
  | unary op x ih => rfl
  | binary op a b iha ihb =>
    cases op with
    | sum =>
      rw [isAdditive, ← iha, ← ihb, toPool?]
      cases toPool? a <;> cases toPool? b <;> rfl
    | difference =>
      rw [isAdditive, ← iha, ← ihb, toPool?]
      cases toPool? a <;> cases toPool? b <;> rfl
    | product | fraction | power | min | max => rfl

theorem exists_toPool? {e : Expr} (h : isAdditive e = true) : ∃ p, toPool? e = some p := by
  rw [← isSome_toPool?] at h
  exact Option.isSome_iff_exists.mp h

theorem toPool?_eq_none {e : Expr} (h : ¬ isAdditive e = true) : toPool? e = none := by
  rw [← isSome_toPool?, Option.not_isSome_iff_eq_none] at h
  exact h

theorem toPool?_sum_eq_some_iff {a b : Expr} {p : Pool} :
    toPool? (.binary .sum a b) = some p ↔
      ∃ q r, toPool? a = some q ∧ toPool? b = some r ∧ q ++ r = p := by
  rw [toPool?]
  cases toPool? a <;> cases toPool? b <;> simp

theorem toPool?_difference_eq_some_iff {a b : Expr} {p : Pool} :
    toPool? (.binary .difference a b) = some p ↔
      ∃ q r, toPool? a = some q ∧ toPool? b = some r ∧ q ++ r.negated = p := by
  rw [toPool?]
  cases toPool? a <;> cases toPool? b <;> simp

def contractOperand (x : Expr) : Expr :=
  if isBare x then x else contract x

theorem contract_unary (op : UnaryOp) (x : Expr) :
    contract (.unary op x) = .unary op (contractOperand x) :=
  rfl

theorem contract_binary {op : BinaryOp} {a b : Expr} (apart : ¬ isAdditive (.binary op a b) = true) :
    contract (.binary op a b) = .binary op (contractOperand a) (contractOperand b) := by
  rw [contract, toPool?_eq_none apart, contractOperand, contractOperand]

/-- The cases that contraction tells apart: an additive expression is contracted as a whole, any other operation
has its operands contracted. -/
@[elab_as_elim]
theorem contraction_induction {P : Expr → Prop}
    (additive : ∀ e p, isAdditive e = true → toPool? e = some p → P e) (reference : ∀ name, P (ref name))
    (unary : ∀ op x, P x → P (.unary op x))
    (binary : ∀ op a b, ¬ isAdditive (.binary op a b) = true → P a → P b → P (.binary op a b))
    (e : Expr) : P e := by
  have flat : ∀ e, isAdditive e = true → P e := by
    intro e h
    obtain ⟨p, flat⟩ := exists_toPool? h
    exact additive e p h flat
  induction e with
  | leaf l =>
    cases l with
    | ref name => exact reference name
    | die faces | num value | pool p => exact flat _ rfl
  | unary op x ih => exact unary op x ih
  | binary op a b iha ihb =>
    by_cases h : isAdditive (.binary op a b) = true
    · exact flat _ h
    · exact binary op a b h iha ihb

end DiceAlgebra.Expr
