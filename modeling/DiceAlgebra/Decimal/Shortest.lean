import DiceAlgebra.Text.Numeral

/-! The shortest decimal that reads back as a given double, in exact rational arithmetic. -/
namespace DiceAlgebra.Decimal

/-- A positive double `mantissa * 2 ^ exponent`. -/
structure Binary where
  mantissa : Nat
  exponent : Int
deriving DecidableEq

namespace Binary

def leadingBit : Nat := 4503599627370496

/-- The magnitude in the bits of a finite double. Below the least exponent the leading bit is not
implied. -/
def ofBits (bits : UInt64) : Binary :=
  let fraction : Nat := bits.toNat % leadingBit
  let exponent : Nat := bits.toNat / leadingBit % 2048
  if exponent = 0 then ⟨fraction, -1074⟩ else ⟨leadingBit + fraction, (exponent : Int) - 1075⟩

/-- A quarter of the distance to the next double. -/
def quarter (b : Binary) : Rat :=
  2 ^ (b.exponent - 2)

def value (b : Binary) : Rat :=
  4 * b.mantissa * b.quarter

/-- Whether a number reads as this double: it lies within half the distance to either neighbour, and the
boundary goes to the even mantissa. The neighbour below a power of two is nearer. -/
def readsFrom (b : Binary) (x : Rat) : Bool :=
  let nearer := b.mantissa = leadingBit ∧ -1074 < b.exponent
  let low := (4 * b.mantissa - if nearer then 1 else 2) * b.quarter
  let high := (4 * b.mantissa + 2) * b.quarter
  low < x && x < high || b.mantissa % 2 = 0 && (x = low || x = high)

/-- The point `digits * 10 ^ exponent` nearest to the double, if any point of that grid reads as it. One of
the value's two neighbours on the grid does, if any point does; of two equally near the even one is taken. -/
def onGrid (b : Binary) (exponent : Int) : Option Nat :=
  let grid : Rat := 10 ^ exponent
  let below := (b.value / grid).floor.toNat
  let above := below + 1
  match b.readsFrom (below * grid), b.readsFrom (above * grid) with
  | true, true =>
    let toBelow := b.value - below * grid
    let toAbove := above * grid - b.value
    if toBelow < toAbove ∨ toBelow = toAbove ∧ below % 2 = 0 then some below else some above
  | true, false => some below
  | false, true => some above
  | false, false => none

/-- The digits and exponent of the point on the coarsest grid, which has the fewest digits. The finest grid
is finer than the least double. -/
def shortest (b : Binary) : Nat × Int :=
  ((List.range 633).findSome? fun (i : Nat) =>
    let exponent : Int := 308 - i
    (b.onGrid exponent).map fun digits => (digits, exponent)).getD (0, 0)

end Binary

/-- Places the point among the digits, with zeros up to it where they are needed. -/
def positional (digits : Nat) (exponent : Int) : String :=
  if 0 ≤ exponent then
    Text.numeral (digits * Nat.pow 10 exponent.toNat)
  else
    let places := exponent.natAbs
    let fraction := Text.digits (digits % Nat.pow 10 places)
    Text.numeral (digits / Nat.pow 10 places) ++ "." ++
      String.ofList (List.replicate (places - fraction.length) '0' ++ fraction)

/-- A double with the fewest digits that read back, always positional, without a point where there is no
fraction. The sign of zero is written. -/
def text (x : Float) : String :=
  if x.isNaN then
    "NaN"
  else
    let bits := x.toBits
    let sign := if bits < 0x8000000000000000 then "" else "-"
    if x.isInf then
      sign ++ "inf"
    else
      let magnitude := Binary.ofBits bits
      if magnitude.mantissa = 0 then
        sign ++ "0"
      else
        let (digits, exponent) := magnitude.shortest
        sign ++ positional digits exponent

end DiceAlgebra.Decimal
