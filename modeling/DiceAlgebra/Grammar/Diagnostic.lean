import DiceAlgebra.Grammar.Segment

/-! What is wrong with a text, and where. -/
namespace DiceAlgebra.Grammar

inductive Problem where
  | segment (error : SegmentError)
  | found (c : Char) (expected : List Char)
  | foundEnd (expected : String)
deriving DecidableEq

/-- A problem with the bytes it concerns, from `start` up to `stop`. -/
structure Diagnostic where
  start : Nat
  stop : Nat
  problem : Problem
deriving DecidableEq

def alternatives (cs : List Char) : String :=
  match (cs.map fun c => "'" ++ c.toString ++ "'").reverse with
  | [] => ""
  | [only] => only
  | last :: others => ", ".intercalate others.reverse ++ ", or " ++ last

def Problem.message : Problem → String
  | segment error => error.message
  | found c expected => "found " ++ c.toString ++ " expected " ++ alternatives expected
  | foundEnd expected => "found end of input expected " ++ expected

def Diagnostic.message (d : Diagnostic) : String :=
  d.problem.message

def details (ds : List Diagnostic) : String :=
  "; ".intercalate (ds.map Diagnostic.message)

end DiceAlgebra.Grammar
