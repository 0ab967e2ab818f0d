import DiceAlgebra.Proofs.Roller.Run
import DiceAlgebra.Proofs.Sums
import DiceAlgebra.Roller.Source
import Mathlib.Data.List.Forall2

/-! Throws from a script of values. A step that throws `n` dice takes the first `n` values off the script, and
its result can be told from these values alone. Steps in a row take the values of the first one first. -/
namespace DiceAlgebra

namespace Formula

variable {α β : Type}

/-- The same operations in the same places, with related leaves. -/
inductive Forall₂ (R : α → β → Prop) : Formula α → Formula β → Prop where
  | leaf {a : α} {b : β} : R a b → Forall₂ R (leaf a) (leaf b)
  | unary (op : UnaryOp) {x : Formula α} {y : Formula β} : Forall₂ R x y →
    Forall₂ R (unary op x) (unary op y)
  | binary (op : BinaryOp) {a b : Formula α} {c d : Formula β} : Forall₂ R a c → Forall₂ R b d →
    Forall₂ R (binary op a b) (binary op c d)

theorem Forall₂.imp {R S : α → β → Prop} {x : Formula α} {y : Formula β} (related : Forall₂ R x y)
    (each : ∀ a ∈ x.leaves, ∀ b, R a b → S a b) : Forall₂ S x y := by
  induction related with
  | leaf h => exact .leaf (each _ (List.mem_singleton_self _) _ h)
  | unary op _ ih => exact .unary op (ih each)
  | binary op _ _ iha ihb =>
    rw [leaves, List.forall_mem_append] at each
    exact .binary op (iha each.1) (ihb each.2)

end Formula

namespace Source

variable {ε ε' α β : Type}

/-- On a script of at least `n` values the step succeeds and takes the first `n` of them, with a result of which
`Q` holds for the values taken. -/
def Draws (step : EStateM ε Source α) (n : Nat) (Q : List UInt32 → α → Prop) : Prop :=
  ∀ drawn rest, drawn.length = n →
    ∃ a, step.run (script (drawn ++ rest)) = .ok a (script rest) ∧ Q drawn a

theorem draws_pure {Q : List UInt32 → α → Prop} {a : α} (h : Q [] a) :
    Draws (pure a : EStateM ε Source α) 0 Q := by
  intro drawn rest len
  rw [List.length_eq_zero_iff] at len
  rw [len]
  exact ⟨a, rfl, h⟩

theorem draws_rollDie (faces : UInt32) : Draws (rollDie faces) 1 fun drawn face => [face] = drawn := by
  intro drawn rest len
  obtain ⟨face, rfl⟩ := List.length_eq_one_iff.mp len
  exact ⟨face, rfl, rfl⟩

namespace Draws

variable {step : EStateM ε Source α} {n m : Nat} {Q : List UInt32 → α → Prop}
  {S : List UInt32 → β → Prop}

theorem mono {Q' : List UInt32 → α → Prop} (h : Draws step n Q)
    (weaker : ∀ drawn a, Q drawn a → Q' drawn a) : Draws step n Q' := by
  intro drawn rest len
  obtain ⟨a, run, holds⟩ := h drawn rest len
  exact ⟨a, run, weaker drawn a holds⟩

theorem adaptExcept (h : Draws step n Q) (f : ε → ε') : Draws (step.adaptExcept f) n Q := by
  intro drawn rest len
  obtain ⟨a, run, holds⟩ := h drawn rest len
  exact ⟨a, run_adaptExcept_eq_ok.mpr run, holds⟩

theorem map {f : α → β} (h : Draws step n Q) (kept : ∀ drawn a, Q drawn a → S drawn (f a)) :
    Draws (f <$> step) n S := by
  intro drawn rest len
  obtain ⟨a, run, holds⟩ := h drawn rest len
  exact ⟨f a, run_map_eq_ok.mpr ⟨a, run, rfl⟩, kept drawn a holds⟩

theorem bind {f : α → EStateM ε Source β} (h : Draws step n Q)
    (next : ∀ before a, Q before a → Draws (f a) m fun drawn b => S (before ++ drawn) b) :
    Draws (step >>= f) (n + m) S := by
  intro drawn rest len
  have first_len : (drawn.take n).length = n := by
    rw [List.length_take]
    omega
  have second_len : (drawn.drop n).length = m := by
    rw [List.length_drop]
    omega
  obtain ⟨a, first, holds⟩ := h (drawn.take n) (drawn.drop n ++ rest) first_len
  obtain ⟨b, second, holds'⟩ := next (drawn.take n) a holds (drawn.drop n) rest second_len
  rw [← List.append_assoc, List.take_append_drop] at first
  rw [List.take_append_drop] at holds'
  exact ⟨b, run_bind_eq_ok.mpr ⟨a, _, first, second⟩, holds'⟩

end Draws

theorem draws_mapM_list {f : α → EStateM ε Source β} {cost : α → Nat} {record : β → List UInt32}
    {R : α → β → Prop} {as : List α}
    (each : ∀ a ∈ as, Draws (f a) (cost a) fun drawn b => record b = drawn ∧ R a b) :
    Draws (as.mapM f) (as.foldr (fun a n => cost a + n) 0) fun drawn bs =>
      bs.flatMap record = drawn ∧ List.Forall₂ R as bs := by
  induction as with
  | nil => exact draws_pure ⟨rfl, .nil⟩
  | cons a as ih =>
    rw [List.mapM_cons, List.foldr_cons]
    refine (each a (List.mem_cons_self ..)).bind fun before b head => ?_
    rw [← Nat.add_zero (as.foldr _ 0)]
    refine (ih fun a' later => each a' (List.mem_cons_of_mem a later)).bind fun drawn bs tail => ?_
    refine draws_pure ⟨?_, .cons head.2 tail.2⟩
    rw [List.flatMap_cons, head.1, tail.1, List.append_nil]

theorem draws_mapM_formula {f : α → EStateM ε Source β} {cost : α → Nat} {record : β → List UInt32}
    {R : α → β → Prop} {x : Formula α}
    (each : ∀ a ∈ x.leaves, Draws (f a) (cost a) fun drawn b => record b = drawn ∧ R a b) :
    Draws (x.mapM f) (x.leaves.foldr (fun a n => cost a + n) 0) fun drawn y =>
      y.leaves.flatMap record = drawn ∧ Formula.Forall₂ R x y := by
  induction x with
  | leaf a =>
    rw [Formula.mapM, Formula.leaves, List.foldr_cons, List.foldr_nil]
    refine (each a (List.mem_singleton_self a)).bind fun before b found => ?_
    refine draws_pure ⟨?_, .leaf found.2⟩
    rw [Formula.leaves, List.flatMap_cons, List.flatMap_nil, found.1]
  | unary op x ih =>
    rw [Formula.mapM, ← Nat.add_zero (List.foldr _ 0 _)]
    refine (ih each).bind fun before y found => ?_
    refine draws_pure ⟨?_, .unary op found.2⟩
    rw [Formula.leaves, found.1, List.append_nil]
  | binary op a b iha ihb =>
    rw [Formula.mapM, Formula.leaves, foldr_add_append]
    refine (iha fun l left => each l (List.mem_append_left _ left)).bind fun before c found => ?_
    rw [← Nat.add_zero (List.foldr _ 0 b.leaves)]
    refine (ihb fun l right => each l (List.mem_append_right _ right)).bind fun drawn d found' => ?_
    refine draws_pure ⟨?_, .binary op found.2 found'.2⟩
    rw [Formula.leaves, List.flatMap_append, found.1, found'.1, List.append_nil]

end Source
end DiceAlgebra
