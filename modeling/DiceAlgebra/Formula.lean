import DiceAlgebra.Operator

/-! Trees of operations. The leaves are left open: what is to be thrown and what has been thrown are the
same trees over different leaves, with one traversal and one printer for both. -/
namespace DiceAlgebra

inductive Formula (α : Type) where
  | leaf (a : α)
  | unary (op : UnaryOp) (x : Formula α)
  | binary (op : BinaryOp) (a b : Formula α)
deriving DecidableEq

namespace Formula

variable {α β : Type}

def leaves : Formula α → List α
  | leaf a => [a]
  | unary _ x => x.leaves
  | binary _ a b => a.leaves ++ b.leaves

def map (f : α → β) : Formula α → Formula β
  | leaf a => leaf (f a)
  | unary op x => unary op (x.map f)
  | binary op a b => binary op (a.map f) (b.map f)

theorem leaves_map (f : α → β) (x : Formula α) : (x.map f).leaves = x.leaves.map f := by
  induction x with
  | leaf a => rfl
  | unary op x ih => exact ih
  | binary op a b iha ihb => simp [map, leaves, iha, ihb]

/-- Replaces the leaves from left to right, keeping the operations. -/
def mapM {m : Type → Type} [Monad m] (f : α → m β) : Formula α → m (Formula β)
  | leaf a => return leaf (← f a)
  | unary op x => return unary op (← x.mapM f)
  | binary op a b => do
    let a ← a.mapM f
    let b ← b.mapM f
    return binary op a b

def hasRoot (op : BinaryOp) : Formula α → Bool
  | binary root _ _ => root = op
  | _ => false

def isCommutative : Formula α → Bool
  | binary op _ _ => op.isCommutative
  | _ => false

/-- How leaves are written, and how tightly the text of one holds together. -/
structure LeafStyle (α : Type) where
  text : α → String
  precedence : α → Precedence

def precedence (style : LeafStyle α) : Formula α → Precedence
  | leaf a => style.precedence a
  | unary _ _ => .call
  | binary op _ _ => op.precedence

def enclose (wrap : Bool) (text : String) : String :=
  if wrap then "(" ++ text ++ ")" else text

/-- Writes a formula with as few parentheses as the operations ask for, each operand looked at on its
own. -/
def render (style : LeafStyle α) : Formula α → String
  | leaf a => style.text a
  | unary op x => op.name ++ "(" ++ x.render style ++ ")"
  | binary op a b =>
    match op.spelling with
    | .call name => name ++ "(" ++ a.render style ++ ", " ++ b.render style ++ ")"
    | .between symbol =>
      enclose (op.wrapsLeft (a.precedence style)) (a.render style) ++ " " ++ symbol ++ " " ++
        enclose (op.wrapsRight (b.precedence style) (b.hasRoot op)) (b.render style)

end Formula
end DiceAlgebra
