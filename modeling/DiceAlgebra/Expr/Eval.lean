import DiceAlgebra.Expr.Basic
import DiceAlgebra.Outcome
import DiceAlgebra.Roller

/-! Throwing the dice of an expression. The outcome has the operations of the expression in the same
places, and each die is thrown once, from left to right; the arithmetic comes after all throws. -/
namespace DiceAlgebra

abbrev References := String → Option Int32

def References.none : References := fun _ => Option.none

inductive EvalError where
  | unresolved (name : String)
  | tooManyRolls (leaf : Expr.Leaf) (dice : Dice)
  | exhausted
deriving DecidableEq

namespace EvalError

def ofThrow (leaf : Expr.Leaf) : ThrowError → EvalError
  | .tooManyRolls d => tooManyRolls leaf d
  | .exhausted => exhausted

def message : EvalError → String
  | unresolved name => "unresolved reference \"" ++ name ++ "\""
  | tooManyRolls leaf d =>
    "dice error while evaluating \"" ++ leaf.text ++ "\": " ++ (ThrowError.tooManyRolls d).message
  | exhausted => ThrowError.exhausted.message

end EvalError

/-- Why an expression has no value: it could not be thrown, or what was thrown does not add up. -/
inductive Failure where
  | throwing (error : EvalError)
  | calculating (error : CalcError)
deriving DecidableEq

def Failure.message : Failure → String
  | throwing e => e.message
  | calculating e => e.message

namespace Expr

variable {σ : Type} [Roller σ]

def Leaf.roll (refs : References) (l : Leaf) : EStateM EvalError σ Outcome.Leaf :=
  match l with
  | die faces => .die <$> (Dice.die faces).roll.adaptExcept (EvalError.ofThrow l)
  | num value => return .num value
  | ref name =>
    match refs name with
    | some value => return .ref name value
    | none => throw (.unresolved name)
  | pool p => .pool <$> p.roll.adaptExcept (EvalError.ofThrow l)

def roll (refs : References) (e : Expr) : EStateM EvalError σ Outcome :=
  Formula.mapM (Leaf.roll refs) e

def evaluate (refs : References) (e : Expr) : EStateM Failure σ Int32 := do
  let outcome ← (roll refs e).adaptExcept Failure.throwing
  match outcome.value with
  | .ok v => return v
  | .error error => throw (.calculating error)

/-- Evaluates each outermost part marked as rolled, from left to right, and puts its value in its
place. -/
def settle (refs : References) : Expr → EStateM Failure σ Expr
  | .leaf l => return .leaf l
  | .unary .rolled x => num <$> evaluate refs x
  | .unary .abs x => .unary .abs <$> settle refs x
  | .binary op a b => do
    let a ← settle refs a
    let b ← settle refs b
    return .binary op a b

end Expr
end DiceAlgebra
