import DiceAlgebra.Formula
import DiceAlgebra.Pool.Basic

/-! Dice expressions: formulas over dice that are still to be thrown. -/
namespace DiceAlgebra

/-- What an expression is built from. A die is kept with the faces it was written with, zero included. -/
inductive Expr.Leaf where
  | die (faces : UInt32)
  | num (value : Int32)
  | ref (name : String)
  | pool (pool : Pool)
deriving DecidableEq

abbrev Expr := Formula Expr.Leaf

namespace Expr

@[match_pattern] abbrev die (faces : UInt32) : Expr := .leaf (.die faces)

@[match_pattern] abbrev num (value : Int32) : Expr := .leaf (.num value)

@[match_pattern] abbrev ref (name : String) : Expr := .leaf (.ref name)

@[match_pattern] abbrev pool (p : Pool) : Expr := .leaf (.pool p)

/-- One die, whose faces may be given with a sign. -/
def signedDie (faces : Int32) : Expr :=
  die (UInt32.ofNat faces.toInt.natAbs)

def ofDice (d : Dice) : Expr :=
  pool (Pool.single d)

namespace Leaf

def text : Leaf → String
  | die faces => "d" ++ Text.numeral faces.toNat
  | num value => Text.integer value.toInt
  | ref name => name
  | pool p => p.text

/-- The text of a pool is a sum as soon as it has two entries. -/
def precedence : Leaf → Precedence
  | pool p => if 1 < p.size then .additive else .value
  | _ => .value

def style : Formula.LeafStyle Leaf := ⟨text, precedence⟩

def isDeterministic : Leaf → Bool
  | die faces => faces < 2
  | pool p => p.isDeterministic
  | num _ | ref _ => true

def isRef : Leaf → Bool
  | ref _ => true
  | _ => false

def rollCount : Leaf → Nat
  | die faces => if faces < 2 then 0 else 1
  | pool p => p.entries.foldr (fun d n => (if d.isConstant then 0 else d.magnitude) + n) 0
  | num _ | ref _ => 0

end Leaf

def text (e : Expr) : String :=
  Formula.render Leaf.style e

instance : ToString Expr := ⟨text⟩

def precedence (e : Expr) : Precedence :=
  Formula.precedence Leaf.style e

def isDeterministic (e : Expr) : Bool :=
  e.leaves.all Leaf.isDeterministic

def hasRefs (e : Expr) : Bool :=
  e.leaves.any Leaf.isRef

def rollCount (e : Expr) : Nat :=
  e.leaves.foldr (fun l n => l.rollCount + n) 0

end Expr
end DiceAlgebra
