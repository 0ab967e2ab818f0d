import DiceAlgebra.Expr.Basic

/-! Expressions inside expressions. -/
namespace DiceAlgebra.Expr

/-- Whether another expression occurs in this one. A pool also holds its entries: a die by its faces, a
number as that very constant, another pool entry by entry. -/
def contains (e other : Expr) : Bool :=
  e = other ||
    match e with
    | .leaf (.pool p) =>
      match other with
      | .leaf (.die faces) => p.containsFaces faces
      | .leaf (.num value) => p.contains (.constant value)
      | .leaf (.pool q) => p.containsAll q
      | _ => false
    | .leaf _ => false
    | .unary _ x => contains x other
    | .binary _ a b => contains a other || contains b other

end DiceAlgebra.Expr
