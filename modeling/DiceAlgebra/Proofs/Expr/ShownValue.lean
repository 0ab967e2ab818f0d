import DiceAlgebra.Proofs.Outcome.Exact
import DiceAlgebra.Proofs.Pool.Tally
import DiceAlgebra.Proofs.Roller.Steady

/-! The total of an expression under a steady roller, without the roller. Operations work on the totals of
their operands, and each leaf totals to a tally of its dice. -/
namespace DiceAlgebra

namespace Expr

variable {face : UInt32 → UInt32} {refs : References}

/-- The total with every die showing its face, if there is one. -/
def shownValue (face : UInt32 → UInt32) (refs : References) (e : Expr) : Option Int32 :=
  (Formula.mapM (Leaf.shown face refs) e).bind fun o => (Outcome.value o).toOption

theorem shownValue_eq_some_iff {e : Expr} {v : Int32} :
    shownValue face refs e = some v ↔
      ∃ o : Outcome, Formula.mapM (Leaf.shown face refs) e = some o ∧ o.value = .ok v := by
  rw [shownValue, Option.bind_eq_some_iff]
  apply exists_congr
  intro o
  cases Outcome.value o <;> simp [Except.toOption]

theorem shownValue_leaf {l : Leaf} {v : Int32} :
    shownValue face refs (.leaf l) = some v ↔ ∃ o, l.shown face refs = some o ∧ o.value = .ok v := by
  rw [shownValue_eq_some_iff]
  cases shown : l.shown face refs with
  | none => simp [Formula.mapM, shown]
  | some o => simp [Formula.mapM, shown, Outcome.value_leaf_eq_ok_iff]

theorem shownValue_unary {op : UnaryOp} {x : Expr} {v : Int32} :
    shownValue face refs (.unary op x) = some v ↔
      ∃ w, shownValue face refs x = some w ∧ op.apply w = .ok v := by
  simp only [shownValue_eq_some_iff]
  cases shown : Formula.mapM (Leaf.shown face refs) x with
  | none => simp [Formula.mapM, shown]
  | some o => simp [Formula.mapM, shown, Outcome.value_unary_eq_ok_iff]

theorem shownValue_binary {op : BinaryOp} {a b : Expr} {v : Int32} :
    shownValue face refs (.binary op a b) = some v ↔
      ∃ w₁ w₂, shownValue face refs a = some w₁ ∧ shownValue face refs b = some w₂ ∧
        op.apply w₁ w₂ = .ok v := by
  simp only [shownValue_eq_some_iff]
  cases left : Formula.mapM (Leaf.shown face refs) a with
  | none => simp [Formula.mapM, left]
  | some o₁ =>
    cases right : Formula.mapM (Leaf.shown face refs) b with
    | none => simp [Formula.mapM, left, right]
    | some o₂ => simp [Formula.mapM, left, right, Outcome.value_binary_eq_ok_iff]

theorem exists_shownValue_leaf {e : Expr} {v : Int32} (value : shownValue face refs e = some v) :
    ∀ l ∈ e.leaves, ∃ w, shownValue face refs (.leaf l) = some w := by
  induction e generalizing v with
  | leaf l =>
    intro l' member
    rw [List.mem_singleton.mp member]
    exact ⟨v, value⟩
  | unary op x ih =>
    rcases shownValue_unary.mp value with ⟨w, value_x, -⟩
    exact ih value_x
  | binary op a b iha ihb =>
    rcases shownValue_binary.mp value with ⟨w₁, w₂, value_a, value_b, -⟩
    exact List.forall_mem_append.mpr ⟨iha value_a, ihb value_b⟩

variable {σ : Type} [Roller σ] {ready : σ → Prop}

theorem throwable_and_shownValue_of_evaluate (steady : Roller.Steady face ready) {e : Expr} {v : Int32}
    {s t : σ} (start : ready s) (h : (evaluate refs e).run s = .ok v t) :
    (∀ l ∈ e.leaves, l.Throwable) ∧ shownValue face refs e = some v := by
  obtain ⟨o, rolled, value⟩ := run_evaluate_eq_ok.mp h
  obtain ⟨throwable, shown, -⟩ := steady.roll_expr start rolled
  exact ⟨throwable, shownValue_eq_some_iff.mpr ⟨o, shown, value⟩⟩

theorem shownValue_of_evaluate (steady : Roller.Steady face ready) {e : Expr} {v : Int32} {s t : σ}
    (start : ready s) (h : (evaluate refs e).run s = .ok v t) : shownValue face refs e = some v :=
  (throwable_and_shownValue_of_evaluate steady start h).2

theorem exists_evaluate_iff (unfailing : Roller.Unfailing face ready) {e : Expr} {v : Int32} {s : σ}
    (start : ready s) : (∃ t, (evaluate refs e).run s = .ok v t) ↔
      (∀ l ∈ e.leaves, l.Throwable) ∧ shownValue face refs e = some v := by
  constructor
  · rintro ⟨t, h⟩
    exact throwable_and_shownValue_of_evaluate unfailing.steady start h
  · rintro ⟨throwable, value⟩
    rcases shownValue_eq_some_iff.mp value with ⟨o, shown, total⟩
    obtain ⟨t, run, -⟩ := exists_run_mapM_formula
      (fun l member thrown shown s start => unfailing.exists_roll_leaf (throwable l member) shown start)
      shown start
    exact ⟨t, run_evaluate_eq_ok.mpr ⟨o, run, total⟩⟩

/-- The dice that a leaf holds. References hold none. -/
def Leaf.dice : Leaf → List Dice
  | die faces => [.die faces]
  | num value => [.constant value]
  | ref _ => []
  | pool p => p.entries

/-- What one die with this many faces adds. Constants are not rolled. -/
def faceValue (face : UInt32 → UInt32) (faces : UInt32) : Int :=
  if faces = 1 then 1 else (face faces).toNat

theorem sumRolls_replicate (n : Nat) (roll : UInt32) :
    Throw.sumRolls (List.replicate n roll) = n * roll.toNat := by
  induction n with
  | zero => simp [Throw.sumRolls]
  | succ n ih =>
    rw [List.replicate_succ, Throw.sumRolls_cons, ih, Int.natCast_add, Int.add_mul, Int.add_comm]
    simp

theorem exactTotal_shown (face : UInt32 → UInt32) (d : Dice) :
    (d.shown face).exactTotal = d.count.toInt * faceValue face d.faces := by
  unfold Throw.exactTotal Dice.shown faceValue
  by_cases constant : d.isConstant = true
  · rw [if_pos constant, if_pos (Dice.isConstant_iff.mp constant), Int.mul_one]
  · rw [if_neg constant, if_neg constant, if_neg (mt Dice.isConstant_iff.mpr constant),
      sumRolls_replicate, Dice.toInt_count]
    split
    · rw [Int.neg_mul]
    · rfl

theorem exactSum_map_shown (face : UInt32 → UInt32) (ds : List Dice) :
    Throw.exactSum (ds.map (Dice.shown face)) = tally (faceValue face) ds := by
  induction ds with
  | nil => rfl
  | cons d ds ih => rw [List.map_cons, Throw.exactSum_cons, ih, exactTotal_shown, tally_cons]

theorem toInt_value_of_shown {l : Leaf} {o : Outcome.Leaf} {v : Int32}
    (known : ∀ name, l ≠ .ref name) (shown : l.shown face refs = some o) (value : o.value = .ok v) :
    v.toInt = tally (faceValue face) l.dice := by
  cases l with
  | ref name => exact absurd rfl (known name)
  | num w =>
    cases shown
    cases value
    simp [Leaf.dice, faceValue]
  | die faces =>
    cases shown
    rw [(Outcome.Leaf.total_eq_ok_iff.mp value).2, exactTotal_shown]
    simp [Leaf.dice]
  | pool p =>
    cases shown
    rw [(Outcome.Leaf.sum_throws_eq_ok_iff.mp value).2.2, exactSum_map_shown, Int32.toInt_zero,
      Int.zero_add, Leaf.dice]

end Expr
end DiceAlgebra
