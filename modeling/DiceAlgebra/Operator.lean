import DiceAlgebra.Throw

/-! The operations of a formula: their 32-bit arithmetic, how they are spelled, and which of them bind
tighter. -/
namespace DiceAlgebra

inductive UnaryOp where
  | abs
  | rolled
deriving DecidableEq

inductive BinaryOp where
  | sum
  | difference
  | product
  | fraction
  | power
  | min
  | max
deriving DecidableEq

inductive Fault where
  | overflow
  | divisionByZero
  | throwOverflow (thrown : Throw)
deriving DecidableEq

def checked (n : Int) : Except Fault Int32 :=
  (fit? n).elim (.error .overflow) .ok

def UnaryOp.apply : UnaryOp → Int32 → Except Fault Int32
  | abs, v => checked v.toInt.natAbs
  | rolled, v => .ok v

/-- Quotients are cut off toward zero, reciprocals of powers included. The reciprocal of a power of 1 or
-1 is that power itself, and any other one is less than 1 in magnitude. -/
def BinaryOp.apply : BinaryOp → Int32 → Int32 → Except Fault Int32
  | sum, v, w => checked (v.toInt + w.toInt)
  | difference, v, w => checked (v.toInt - w.toInt)
  | product, v, w => checked (v.toInt * w.toInt)
  | fraction, v, w => if w = 0 then .error .divisionByZero else checked (v.toInt.tdiv w.toInt)
  | power, v, w =>
    if 0 ≤ w.toInt ∨ v.toInt.natAbs = 1 then
      checked (Int.pow v.toInt (cappedExponent w.toInt.natAbs))
    else if v = 0 then
      .error .divisionByZero
    else
      .ok 0
  | min, v, w => .ok (if v ≤ w then v else w)
  | max, v, w => .ok (if v ≤ w then w else v)

/-- How tightly the parts of a written formula hold together, loosest first. -/
inductive Precedence where
  | additive
  | multiplicative
  | exponential
  | call
  | value
deriving DecidableEq, Ord

instance : LT Precedence := ltOfOrd

/-- An operation is spelled as a call, or by a symbol between its operands. -/
inductive Spelling where
  | call (name : String)
  | between (symbol : String)
deriving DecidableEq

def UnaryOp.name : UnaryOp → String
  | abs => "abs"
  | rolled => "rolled"

namespace BinaryOp

def spelling : BinaryOp → Spelling
  | sum => .between "+"
  | difference => .between "-"
  | product => .between "*"
  | fraction => .between "/"
  | power => .between "^"
  | min => .call "min"
  | max => .call "max"

def precedence : BinaryOp → Precedence
  | sum | difference => .additive
  | product | fraction => .multiplicative
  | power => .exponential
  | min | max => .call

def isCommutative : BinaryOp → Bool
  | sum | product | min | max => true
  | difference | fraction | power => false

/-- A left operand needs parentheses if it holds less tightly. Powers group to neither side, so one that
is the base of another needs them too. -/
def wrapsLeft (op : BinaryOp) (operand : Precedence) : Bool :=
  operand < op.precedence || (op = .power && operand = .exponential)

/-- A right operand needs parentheses also if it holds as tightly, unless both are the same commutative
operation. -/
def wrapsRight (op : BinaryOp) (operand : Precedence) (sameOp : Bool) : Bool :=
  operand < op.precedence || (operand = op.precedence && !(op.isCommutative && sameOp))

end BinaryOp
end DiceAlgebra
