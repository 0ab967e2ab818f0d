import DiceAlgebra.Expr.Eval
import DiceAlgebra.Roller.Source

/-! Expected values that can be told without a throw. -/
namespace DiceAlgebra.Expr

/-- References have no value of their own to average. -/
def Leaf.average? : Leaf → Option Float
  | .die faces => some (Dice.die faces).average
  | .num value => some (Float.ofInt value.toInt)
  | .ref _ => none
  | .pool p => some p.average

def fixedValue? (e : Expr) : Option Float :=
  if isDeterministic e && !hasRefs e then
    match (evaluate References.none e).run (Source.constant 1) with
    | .ok v _ => some (Float.ofInt v.toInt)
    | .error _ _ => none
  else
    none

/-- The expected value of an expression. Sums, differences and products of independent throws have the sum,
difference and product of the expected values; the other operations are not linear, so they are averaged
only where nothing is thrown. -/
def average? : Expr → Option Float
  | .leaf l => l.average?
  | .unary .rolled x => average? x
  | .binary .sum a b => do return (← average? a) + (← average? b)
  | .binary .difference a b => do return (← average? a) - (← average? b)
  | .binary .product a b => do return (← average? a) * (← average? b)
  | e => fixedValue? e

end DiceAlgebra.Expr
