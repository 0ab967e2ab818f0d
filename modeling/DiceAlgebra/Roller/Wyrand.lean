/-! The wyrand generator and unbiased draws from it. -/
namespace DiceAlgebra

/-- The state is a counter that runs through all 64-bit numbers. -/
structure Wyrand where
  state : UInt64
deriving DecidableEq

namespace Wyrand

/-- Odd, so the counter returns to a state after `2 ^ 64` steps and not before. -/
def increment : UInt64 := 0x2d358dccaa6c78a5

def mask : UInt64 := 0x8bb84b93962eacc9

/-- Steps the counter and folds the 128-bit product of its two masks onto itself. -/
def next (g : Wyrand) : UInt64 × Wyrand :=
  let state := g.state + increment
  let product := state.toNat * (state ^^^ mask).toNat
  (UInt64.ofNat product ^^^ UInt64.ofNat (product >>> 64), ⟨state⟩)

def next32 (g : Wyrand) : UInt32 × Wyrand :=
  let (word, g) := g.next
  (word.toUInt32, g)

/-- Scales words to numbers below `n` by the high half of the product, drawing again while the low half is
below `threshold`. -/
def belowFrom (n threshold : UInt32) : Nat → Wyrand → UInt32 × Wyrand
  | tries, g =>
    let (word, g) := g.next32
    let product := word.toUInt64 * n.toUInt64
    match tries with
    | 0 => ((product >>> 32).toUInt32, g)
    | tries + 1 =>
      if product.toUInt32 < threshold then
        belowFrom n threshold tries g
      else
        ((product >>> 32).toUInt32, g)

/-- A number below `n`, each as likely as the others: the words whose low half is below `2 ^ 32 % n` are
refused, which leaves the same number of words to every result. After `2 ^ 64` refusals the counter would
be back where it started and refuse forever, so no more are tried. -/
def below (n : UInt32) (g : Wyrand) : UInt32 × Wyrand :=
  belowFrom n ((0 - n) % n) UInt64.size g

/-- A face of a die. Fewer than two faces leave nothing to draw. -/
def rollDie (faces : UInt32) (g : Wyrand) : UInt32 × Wyrand :=
  if 1 < faces then
    let (index, g) := g.below faces
    (1 + index, g)
  else
    (1, g)

end Wyrand
end DiceAlgebra
