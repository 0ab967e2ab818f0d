import DiceAlgebra.Expr.Basic
import DiceAlgebra.Pool.Contract

/-! Flat parts of an expression and their contraction. -/
namespace DiceAlgebra.Expr

/-- The leaf as a flat sum; the value of a reference is not known yet. -/
def Leaf.toPool? : Leaf → Option Pool
  | .die faces => some (.single (.die faces))
  | .num value => some (.single (.constant value))
  | .ref _ => none
  | .pool p => some p

/-- The expression as one flat sum, if it is built from sums and differences alone. -/
def toPool? : Expr → Option Pool
  | .leaf l => l.toPool?
  | .binary .sum a b => do return (← toPool? a) ++ (← toPool? b)
  | .binary .difference a b => do return (← toPool? a) ++ (← toPool? b).negated
  | _ => none

def isBare : Expr → Bool
  | die _ | num _ => true
  | _ => false

/-- Turns every largest flat part into a contracted pool. Other operations stay, and so do their bare
operands. Products are never flat: the same throw twice is not two throws. -/
def contract : Expr → Expr
  | .leaf l =>
    match l.toPool? with
    | some p => pool p.contract
    | none => .leaf l
  | .unary op x => .unary op (if isBare x then x else contract x)
  | .binary op a b =>
    match toPool? (.binary op a b) with
    | some p => pool p.contract
    | none => .binary op (if isBare a then a else contract a) (if isBare b then b else contract b)

theorem contract_eq_pool {e : Expr} {p : Pool} (flat : toPool? e = some p) :
    contract e = pool p.contract := by
  cases e with
  | leaf l =>
    rw [toPool?] at flat
    rw [contract, flat]
  | unary op x => simp [toPool?] at flat
  | binary op a b => rw [contract, flat]

end DiceAlgebra.Expr
