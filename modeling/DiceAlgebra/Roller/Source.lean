import DiceAlgebra.Roller
import DiceAlgebra.Roller.Wyrand

/-! The rollers at hand: a fixed value, the highest face, a script of values, and random faces. -/
namespace DiceAlgebra

/-- Where faces come from. A script is read off in order, whatever the die. -/
inductive Source where
  | constant (value : UInt32)
  | highest
  | script (values : List UInt32)
  | random (generator : Wyrand)
deriving DecidableEq

namespace Source

def seeded (seed : UInt64) : Source :=
  random ⟨seed⟩

def rollDie? (faces : UInt32) : Source → Option (UInt32 × Source)
  | constant value => some (value, constant value)
  | highest => some (faces, highest)
  | script [] => none
  | script (value :: rest) => some (value, script rest)
  | random g =>
    let (face, g) := g.rollDie faces
    some (face, random g)

instance : Roller Source := ⟨rollDie?⟩

def remaining? : Source → Option (List UInt32)
  | script values => some values
  | _ => none

def canRoll? (s : Source) : Option Bool :=
  s.remaining?.map (!·.isEmpty)

end Source
end DiceAlgebra
