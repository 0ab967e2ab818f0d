import DiceAlgebra.Formula

/-! Outcomes: formulas over dice that have been thrown, and the numbers they come to. -/
namespace DiceAlgebra

inductive Outcome.Leaf where
  | die (thrown : Throw)
  | num (value : Int32)
  | ref (name : String) (value : Int32)
  | pool (throws : List Throw)
deriving DecidableEq

abbrev Outcome := Formula Outcome.Leaf

namespace Outcome

@[match_pattern] abbrev die (t : Throw) : Outcome := .leaf (.die t)

@[match_pattern] abbrev num (value : Int32) : Outcome := .leaf (.num value)

@[match_pattern] abbrev ref (name : String) (value : Int32) : Outcome := .leaf (.ref name value)

@[match_pattern] abbrev pool (ts : List Throw) : Outcome := .leaf (.pool ts)

namespace Leaf

def text (limit : Option Nat) : Leaf → String
  | die t =>
    if t.dice.isConstant then
      t.dice.text
    else
      "d" ++ Text.numeral t.dice.faces.toNat ++ t.listing limit
  | num value => Text.integer value.toInt
  | ref name value => name ++ "[" ++ Text.integer value.toInt ++ "]"
  | pool ts => if ts.isEmpty then "+0" else " ".intercalate (ts.map (Throw.text limit))

/-- Throws are added up in text as the entries of a pool are. -/
def precedence : Leaf → Precedence
  | pool ts => if 1 < ts.length then .additive else .value
  | _ => .value

def style (limit : Option Nat) : Formula.LeafStyle Leaf := ⟨text limit, precedence⟩

def total (t : Throw) : Except Fault Int32 :=
  t.total?.elim (.error (.throwOverflow t)) .ok

/-- The number a leaf comes to. Throws are added from the left, and each partial sum has to fit. -/
def value : Leaf → Except Fault Int32
  | die t => total t
  | num v => .ok v
  | ref _ v => .ok v
  | pool ts => ts.foldlM (fun sum t => do checked (sum.toInt + (← total t).toInt)) 0

def rolls : Leaf → List UInt32
  | die t => t.rolls
  | pool ts => ts.flatMap Throw.rolls
  | num _ | ref _ _ => []

end Leaf

/-- At most `limit` rolls are listed for each throw. -/
def text (limit : Option Nat) (o : Outcome) : String :=
  Formula.render (Leaf.style limit) o

instance : ToString Outcome := ⟨text none⟩

def precedence (o : Outcome) : Precedence :=
  Formula.precedence (Leaf.style none) o

def rolls (o : Outcome) : List UInt32 :=
  o.leaves.flatMap Leaf.rolls

end Outcome

/-- The part of an outcome that has no value although its own operands have one, and why. -/
structure CalcError where
  culprit : Outcome
  fault : Fault
deriving DecidableEq

def CalcError.message (e : CalcError) : String :=
  match e.fault with
  | .overflow => "integer overflow while calculating " ++ e.culprit.text none
  | .divisionByZero => "division by zero while calculating " ++ e.culprit.text none
  | .throwOverflow t =>
    "dice error while calculating (" ++ e.culprit.text none ++ "): " ++ t.overflowMessage

namespace Outcome

def blame (culprit : Outcome) : Except Fault Int32 → Except CalcError Int32
  | .ok v => .ok v
  | .error fault => .error ⟨culprit, fault⟩

/-- The number that an outcome comes to, operands first and from the left. -/
def value : Outcome → Except CalcError Int32
  | .leaf l => blame (.leaf l) l.value
  | .unary op x => do
    let v ← value x
    blame (.unary op x) (op.apply v)
  | .binary op a b => do
    let v ← value a
    let w ← value b
    blame (.binary op a b) (op.apply v w)

end Outcome
end DiceAlgebra
