import DiceAlgebra.Pool.Basic

/-! Throwing dice. A roller is any state that can be asked for the face of one die; throws are written
once for all of them, in a monad that keeps the state when a throw fails, so what has been drawn stays
drawn. -/
namespace DiceAlgebra

/-- Shows a face of a die with the given number of faces. `none` says that the roller has run dry, which
leaves its state as it was. -/
class Roller (σ : Type) where
  rollDie? (faces : UInt32) : σ → Option (UInt32 × σ)

def maxRolls : Nat := 100000

inductive ThrowError where
  | tooManyRolls (dice : Dice)
  | exhausted
deriving DecidableEq

def ThrowError.message : ThrowError → String
  | tooManyRolls d => d.text ++ " would need too many rolls"
  | exhausted => "iterator is finished"

variable {σ : Type} [Roller σ]

def rollDie (faces : UInt32) : EStateM ThrowError σ UInt32 := fun state =>
  match Roller.rollDie? faces state with
  | some (face, next) => .ok face next
  | none => .error .exhausted state

/-- Throws dice of one kind, one after the other. Constants draw nothing, and neither does a count that
is refused. -/
def Dice.roll (d : Dice) : EStateM ThrowError σ Throw :=
  if d.isConstant then
    return ⟨d, []⟩
  else if maxRolls < d.magnitude then
    throw (.tooManyRolls d)
  else
    Throw.mk d <$> (List.replicate d.magnitude d.faces).mapM rollDie

def Pool.roll (p : Pool) : EStateM ThrowError σ (List Throw) :=
  p.entries.mapM Dice.roll

end DiceAlgebra
