import DiceAlgebra.Formula

/-! Formulas with a hole in one place. Whatever fills the hole is a part of the whole, and every part of a formula
fills the hole that is left where it is cut out. -/
namespace DiceAlgebra.Formula

inductive Context (α : Type) where
  | hole
  | unary (op : UnaryOp) (inner : Context α)
  | left (op : BinaryOp) (inner : Context α) (b : Formula α)
  | right (op : BinaryOp) (a : Formula α) (inner : Context α)

namespace Context

variable {α : Type}

def fill : Context α → Formula α → Formula α
  | hole, x => x
  | unary op inner, x => .unary op (inner.fill x)
  | left op inner b, x => .binary op (inner.fill x) b
  | right op a inner, x => .binary op a (inner.fill x)

/-- What operations carry over to a formula from one of its operands, a formula has from each of its parts. -/
theorem fill_congr {R : Formula α → Formula α → Prop}
    (unary : ∀ op {x y}, R x y → R (.unary op x) (.unary op y))
    (left : ∀ op {a c} b, R a c → R (.binary op a b) (.binary op c b))
    (right : ∀ op a {b d}, R b d → R (.binary op a b) (.binary op a d))
    (c : Context α) {x y : Formula α} (h : R x y) : R (c.fill x) (c.fill y) := by
  induction c with
  | hole => exact h
  | unary op inner ih => exact unary op ih
  | left op inner b ih => exact left op b ih
  | right op a inner ih => exact right op a ih

theorem of_fill {P : Formula α → Prop} (unary : ∀ {op x}, P (.unary op x) → P x)
    (left : ∀ {op a b}, P (.binary op a b) → P a) (right : ∀ {op a b}, P (.binary op a b) → P b)
    {c : Context α} {x : Formula α} (h : P (c.fill x)) : P x := by
  induction c with
  | hole => exact h
  | unary op inner ih => exact ih (unary h)
  | left op inner b ih => exact ih (left h)
  | right op a inner ih => exact ih (right h)

end Context
end DiceAlgebra.Formula
