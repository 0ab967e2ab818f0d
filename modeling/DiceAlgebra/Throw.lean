import DiceAlgebra.Dice

/-! Dice that have been thrown, with what each of them showed. -/
namespace DiceAlgebra

/-- What the dice showed, in the order thrown. Constants are not thrown, so their list is not looked at. -/
structure Throw where
  dice : Dice
  rolls : List UInt32
deriving DecidableEq

namespace Throw

/-- The sum of the rolls under the sign of the dice, or the value of a constant. Each partial sum has to
fit into 32 bits before the sign is taken. -/
def total? (t : Throw) : Option Int32 :=
  if t.dice.isConstant then
    some t.dice.count
  else do
    let sum ← t.rolls.foldlM (fun (sum : Int32) roll => fit? (sum.toInt + roll.toNat)) 0
    if t.dice.isNegative then fit? (-sum.toInt) else some sum

/-- The rolls in brackets. Past the limit only their number is told. -/
def listing (limit : Option Nat) (t : Throw) : String :=
  let shown := t.rolls.take (limit.getD t.rolls.length)
  let hidden := t.rolls.length - shown.length
  "[" ++ ", ".intercalate (shown.map fun roll => Text.numeral roll.toNat) ++
    (if hidden = 0 then "" else ", " ++ Text.numeral hidden ++ " more...") ++ "]"

def text (limit : Option Nat) (t : Throw) : String :=
  if t.dice.isConstant then t.dice.text else t.dice.text ++ t.listing limit

def overflowMessage (t : Throw) : String :=
  "integer overflow while totalling " ++ t.text none

instance : ToString Throw := ⟨text none⟩

end Throw
end DiceAlgebra
