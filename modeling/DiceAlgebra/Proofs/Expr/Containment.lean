import DiceAlgebra.Expr.Contains
import DiceAlgebra.Proofs.Outcome.Exact

/-! Expressions inside expressions. What an expression contains is one of its parts, or is held by a pool among them:
`contains_iff`. Parts of parts are parts, a pool holds single leaves only, and what a smaller pool holds a larger one
holds too. So containment can be followed inwards any number of times. -/
namespace DiceAlgebra

namespace Formula

variable {α : Type} {x y z : Formula α}

theorem self_mem_parts (x : Formula α) : x ∈ x.parts := by
  cases x <;> simp [parts]

theorem mem_parts_trans (inner : x ∈ y.parts) (outer : y ∈ z.parts) : x ∈ z.parts := by
  induction z with
  | leaf a =>
    rw [List.mem_singleton.mp outer] at inner
    exact inner
  | unary op z ih =>
    rcases List.mem_append.mp outer with below | whole
    · exact List.mem_append_left _ (ih below)
    · rwa [List.mem_singleton.mp whole] at inner
  | binary op a b iha ihb =>
    rcases List.mem_append.mp outer with below | whole
    · refine List.mem_append_left _ (List.mem_append.mpr ?_)
      exact (List.mem_append.mp below).imp iha ihb
    · rwa [List.mem_singleton.mp whole] at inner

end Formula

/-- What there is in a pool beside the pool itself: a die with the faces of an entry, in any number, a number that is an
entry, and any pool of its entries. A die without faces counts as one with a single face. -/
inductive Pool.Holds (p : Pool) : Expr → Prop where
  | die {faces : UInt32} {d : Dice} : d ∈ p.entries → d.faces = (Dice.die faces).faces → p.Holds (.die faces)
  | num {value : Int32} : Dice.constant value ∈ p.entries → p.Holds (.num value)
  | pool {q : Pool} : (∀ d ∈ q.entries, d ∈ p.entries) → p.Holds (.pool q)

theorem Pool.Holds.mono {p q : Pool} {e : Expr} (larger : ∀ d ∈ q.entries, d ∈ p.entries) (held : q.Holds e) :
    p.Holds e := by
  cases held with
  | die among same => exact .die (larger _ among) same
  | num among => exact .num (larger _ among)
  | pool smaller => exact .pool fun d among => larger d (smaller d among)

namespace Expr

variable {a b c : Expr}

theorem contains_pool_iff {p : Pool} : contains (pool p) b = true ↔ pool p = b ∨ p.Holds b := by
  unfold contains
  rw [Bool.or_eq_true, decide_eq_true_iff]
  refine or_congr_right ?_
  dsimp only
  split
  · next faces =>
    rw [Pool.containsFaces, List.any_eq_true]
    constructor
    · rintro ⟨d, among, same⟩
      exact .die among (beq_iff_eq.mp same)
    · intro held
      cases held with
      | die among same => exact ⟨_, among, beq_iff_eq.mpr same⟩
  · next value =>
    rw [Pool.contains, List.contains_iff_mem]
    constructor
    · exact .num
    · intro held
      cases held with
      | num among => exact among
  · next q =>
    rw [Pool.containsAll, List.all_eq_true]
    simp only [Pool.contains, List.contains_iff_mem]
    constructor
    · exact .pool
    · intro held
      cases held with
      | pool smaller => exact smaller
  · next no_die no_num no_pool =>
    constructor
    · rintro ⟨⟩
    · intro held
      cases held with
      | die => exact absurd rfl (no_die _)
      | num => exact absurd rfl (no_num _)
      | pool => exact absurd rfl (no_pool _)

theorem contains_leaf_iff {l : Leaf} :
    contains (.leaf l) b = true ↔ .leaf l = b ∨ ∃ p, .leaf l = pool p ∧ p.Holds b := by
  cases l with
  | die faces | num value | ref name => simp [contains]
  | pool p =>
    rw [contains_pool_iff]
    simp

theorem contains_unary_iff {op : UnaryOp} :
    contains (.unary op a) b = true ↔ .unary op a = b ∨ contains a b = true := by
  rw [contains, Bool.or_eq_true, decide_eq_true_iff]

theorem contains_binary_iff {op : BinaryOp} :
    contains (.binary op a c) b = true ↔ .binary op a c = b ∨ contains a b = true ∨ contains c b = true := by
  rw [contains, Bool.or_eq_true, Bool.or_eq_true, decide_eq_true_iff]

theorem contains_iff_parts :
    contains a b = true ↔ ∃ x ∈ a.parts, x = b ∨ ∃ p, x = pool p ∧ p.Holds b := by
  induction a with
  | leaf l =>
    rw [contains_leaf_iff]
    simp [Formula.parts]
  | unary op x ih =>
    rw [contains_unary_iff, ih]
    simp [Formula.parts, or_and_right, exists_or, or_comm]
  | binary op x y ihx ihy =>
    rw [contains_binary_iff, ihx, ihy, or_left_comm]
    simp [Formula.parts, or_and_right, exists_or, or_comm]

theorem contains_of_mem_parts (part : b ∈ a.parts) : contains a b = true :=
  contains_iff_parts.mpr ⟨b, part, .inl rfl⟩

theorem contains_refl (a : Expr) : contains a a = true :=
  contains_of_mem_parts a.self_mem_parts

/-- A pool holds leaves alone, so there is nothing in what it holds but what smaller pools hold. -/
theorem holds_of_contains {p : Pool} (held : p.Holds b) (inner : contains b c = true) : p.Holds c := by
  cases held with
  | die among same =>
    rcases contains_leaf_iff.mp inner with rfl | ⟨q, ⟨⟩, -⟩
    exact .die among same
  | num among =>
    rcases contains_leaf_iff.mp inner with rfl | ⟨q, ⟨⟩, -⟩
    exact .num among
  | pool smaller =>
    rcases contains_pool_iff.mp inner with rfl | held
    · exact .pool smaller
    · exact held.mono smaller

theorem contains_trans (outer : contains a b = true) (inner : contains b c = true) : contains a c = true := by
  obtain ⟨x, x_part, rfl | ⟨p, rfl, held⟩⟩ := contains_iff_parts.mp outer
  · obtain ⟨y, y_part, found⟩ := contains_iff_parts.mp inner
    exact contains_iff_parts.mpr ⟨y, Formula.mem_parts_trans y_part x_part, found⟩
  · exact contains_iff_parts.mpr ⟨pool p, x_part, .inr ⟨p, rfl, holds_of_contains held inner⟩⟩

/-- Every expression contains itself and all its parts, and what is contained in something it contains. It contains
nothing but its parts and what the pools among them hold. -/
theorem contains_preorder :
    (∀ a, contains a a = true) ∧
      (∀ a b c, contains a b = true → contains b c = true → contains a c = true) ∧
      (∀ a : Expr, ∀ x ∈ a.parts, contains a x = true) ∧
      ∀ a b, contains a b = true ↔ ∃ x ∈ a.parts, x = b ∨ ∃ p, x = pool p ∧ p.Holds b :=
  ⟨contains_refl, fun _ _ _ => contains_trans, fun _ _ => contains_of_mem_parts, fun _ _ => contains_iff_parts⟩

theorem contains_preorder_pool :
    let outer : Expr := .binary .product (.unary .rolled (pool (.ofList [.ofParts 2 6, .constant 3, .die 8]))) (ref "STR")
    let inner : Expr := pool (.ofList [.constant 3, .ofParts 2 6])
    contains outer inner = true ∧ contains inner (die 0) = true ∧ contains outer (die 0) = true ∧
      ref "STR" ∈ outer.parts ∧ contains outer (ref "STR") = true := by
  intro outer inner
  have inside : contains outer inner = true := by decide
  have held : contains inner (die 0) = true := by decide
  have part : ref "STR" ∈ outer.parts := by decide
  exact ⟨inside, held, contains_preorder.2.1 _ _ _ inside held, part, contains_preorder.2.2.1 _ _ part⟩

end Expr
end DiceAlgebra
