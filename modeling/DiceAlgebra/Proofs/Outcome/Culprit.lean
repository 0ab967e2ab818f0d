import DiceAlgebra.Proofs.Outcome.Exact

/-! The part of an outcome that is to blame when the calculation fails. Operands are calculated first and from the
left, so the parts are gone through in the order in which they are listed, and the first that comes to nothing is
named. It has numbers for all its operands, and its own last step tells what went wrong. -/
namespace DiceAlgebra

namespace Formula

variable {α : Type}

def operands : Formula α → List (Formula α)
  | leaf _ => []
  | unary _ x => [x]
  | binary _ a b => [a, b]

end Formula

theorem foldlM_eq_error_iff {ε α β : Type} {f : β → α → Except ε β} {as : List α} {b : β} {e : ε} :
    as.foldlM f b = .error e ↔ ∃ before a after c,
      as = before ++ a :: after ∧ before.foldlM f b = .ok c ∧ f c a = .error e := by
  induction as generalizing b with
  | nil => simp [pure, Except.pure]
  | cons a as ih =>
    rw [List.foldlM_cons, bind_eq_error_iff]
    simp only [ih]
    constructor
    · rintro (first | ⟨c, done, before, a', after, d, rfl, run, failed⟩)
      · exact ⟨[], a, as, b, rfl, rfl, first⟩
      · refine ⟨a :: before, a', after, d, rfl, ?_, failed⟩
        rw [List.foldlM_cons]
        exact bind_eq_ok_iff.mpr ⟨c, done, run⟩
    · rintro ⟨before, a', after, d, divided, run, failed⟩
      cases before with
      | nil =>
        cases divided
        cases run
        exact Or.inl failed
      | cons first before =>
        cases divided
        rw [List.foldlM_cons] at run
        obtain ⟨c, done, run⟩ := bind_eq_ok_iff.mp run
        exact Or.inr ⟨c, done, before, a', after, d, rfl, run, failed⟩

namespace Outcome

/-- A quotient with the divisor 0, or a power of 0 with a negative exponent. -/
inductive DividesByZero : Outcome → Prop where
  | fraction {a b : Outcome} : value b = .ok 0 → DividesByZero (.binary .fraction a b)
  | power {a b : Outcome} {w : Int32} : value a = .ok 0 → value b = .ok w → w < 0 →
    DividesByZero (.binary .power a b)

/-- Dice for which the total of this throw is what fails: it is the only one, or the throws before it in a pool
still add up. -/
inductive StuckAt : Outcome → Throw → Prop where
  | die {t : Throw} : t.total? = none → StuckAt (die t) t
  | pool {before after : List Throw} {t : Throw} {v : Int32} : value (pool before) = .ok v → t.total? = none →
    StuckAt (pool (before ++ t :: after)) t

/-- All operands have come to something, and then the last step of the calculation fails like this. -/
def StepFails : Outcome → Fault → Prop
  | .leaf l, fault => l.value = .error fault
  | .unary op x, fault => ∃ v, value x = .ok v ∧ op.apply v = .error fault
  | .binary op a b, fault => ∃ v w, value a = .ok v ∧ value b = .ok w ∧ op.apply v w = .error fault

namespace Leaf

theorem value_ne_divisionByZero (l : Leaf) : l.value ≠ .error .divisionByZero := by
  cases l with
  | die t => simp [value, total_eq_error_iff]
  | num v | ref name v => simp [value]
  | pool ts =>
    simp only [value, ne_eq, foldlM_eq_error_iff, bind_eq_error_iff, total_eq_error_iff, checked_eq_error_iff]
    simp

theorem value_eq_throwOverflow_iff {l : Leaf} {t : Throw} :
    l.value = .error (.throwOverflow t) ↔ StuckAt (.leaf l) t := by
  cases l with
  | die s =>
    simp only [value, total_eq_error_iff, Fault.throwOverflow.injEq]
    constructor
    · rintro ⟨failed, rfl⟩
      exact .die failed
    · rintro ⟨failed⟩
      exact ⟨failed, rfl⟩
  | num v | ref name v =>
    constructor <;> rintro ⟨⟩
  | pool ts =>
    simp only [value, foldlM_eq_error_iff, bind_eq_error_iff, total_eq_error_iff, checked_eq_error_iff]
    constructor
    · rintro ⟨before, s, after, v, rfl, sum, ⟨failed, ⟨⟩⟩ | ⟨_, _, _, ⟨⟩⟩⟩
      exact .pool (value_leaf_eq_ok_iff.mpr sum) failed
    · intro stuck
      cases stuck with
      | @pool before after _ v sum failed =>
        exact ⟨before, t, after, v, rfl, value_leaf_eq_ok_iff.mp sum, Or.inl ⟨failed, rfl⟩⟩

end Leaf

theorem dividesByZero_binary_iff {op : BinaryOp} {a b : Outcome} {v w : Int32} (left : value a = .ok v)
    (right : value b = .ok w) : DividesByZero (.binary op a b) ↔ ¬ op.Defined v.toInt w.toInt := by
  constructor
  · intro divides
    cases divides with
    | fraction zero =>
      cases right.symm.trans zero
      simp [BinaryOp.Defined]
    | power zero exponent negative =>
      cases left.symm.trans zero
      cases right.symm.trans exponent
      have below : w.toInt < 0 := Int32.lt_iff_toInt_lt.mp negative
      simp [BinaryOp.Defined, below]
  · intro undefined
    cases op with
    | sum | difference | product | min | max => exact absurd trivial undefined
    | fraction =>
      have zero : w = 0 := Int32.toInt_inj.mp (Decidable.not_not.mp undefined)
      exact .fraction (zero ▸ right)
    | power =>
      rw [BinaryOp.Defined, not_or, Decidable.not_not, Int.not_le] at undefined
      have zero : v = 0 := Int32.toInt_inj.mp undefined.2
      exact .power (zero ▸ left) right (Int32.lt_iff_toInt_lt.mpr undefined.1)

namespace StepFails

variable {o : Outcome} {fault : Fault}

theorem divisionByZero_iff (h : StepFails o fault) : fault = .divisionByZero ↔ DividesByZero o := by
  cases o with
  | leaf l =>
    refine iff_of_false ?_ (by rintro ⟨⟩)
    rintro rfl
    exact l.value_ne_divisionByZero h
  | unary op x =>
    obtain ⟨v, -, failed⟩ := h
    rw [UnaryOp.overflow_of_apply failed]
    exact iff_of_false (by rintro ⟨⟩) (by rintro ⟨⟩)
  | binary op a b =>
    obtain ⟨v, w, left, right, failed⟩ := h
    rw [dividesByZero_binary_iff left right, ← BinaryOp.apply_eq_divisionByZero_iff, failed, Except.error.injEq]

theorem throwOverflow_iff (h : StepFails o fault) (t : Throw) : fault = .throwOverflow t ↔ StuckAt o t := by
  cases o with
  | leaf l =>
    have failed : l.value = .error fault := h
    rw [← Leaf.value_eq_throwOverflow_iff, failed, Except.error.injEq]
  | unary op x =>
    obtain ⟨v, -, failed⟩ := h
    rw [UnaryOp.overflow_of_apply failed]
    exact iff_of_false (by rintro ⟨⟩) (by rintro ⟨⟩)
  | binary op a b =>
    obtain ⟨v, w, -, -, failed⟩ := h
    refine iff_of_false ?_ (by rintro ⟨⟩)
    rintro rfl
    exact BinaryOp.apply_ne_throwOverflow failed

theorem operands (h : StepFails o fault) : ∀ x ∈ o.operands, ∃ v, value x = .ok v := by
  cases o with
  | leaf l => exact List.forall_mem_nil _
  | unary op x =>
    obtain ⟨v, total, -⟩ := h
    exact List.forall_mem_singleton.mpr ⟨v, total⟩
  | binary op a b =>
    obtain ⟨v, w, left, right, -⟩ := h
    exact List.forall_mem_cons.mpr ⟨⟨v, left⟩, List.forall_mem_singleton.mpr ⟨w, right⟩⟩

end StepFails

theorem stepFails_of_value {o : Outcome} {error : CalcError} (h : value o = .error error) :
    StepFails error.culprit error.fault := by
  induction o generalizing error with
  | leaf l =>
    obtain ⟨fault, failed, rfl⟩ := blame_eq_error_iff.mp h
    exact failed
  | unary op x ih =>
    rw [value, bind_eq_error_iff] at h
    rcases h with operand | ⟨v, total, step⟩
    · exact ih operand
    · obtain ⟨fault, failed, rfl⟩ := blame_eq_error_iff.mp step
      exact ⟨v, total, failed⟩
  | binary op a b iha ihb =>
    rw [value, bind_eq_error_iff] at h
    rcases h with left | ⟨v, left, h⟩
    · exact iha left
    rcases bind_eq_error_iff.mp h with right | ⟨w, right, step⟩
    · exact ihb right
    · obtain ⟨fault, failed, rfl⟩ := blame_eq_error_iff.mp step
      exact ⟨v, w, left, right, failed⟩

def fails (o : Outcome) : Bool :=
  !(value o).isOk

theorem find?_fails_singleton {o : Outcome} {result : Except Fault Int32} (last : value o = blame o result) :
    [o].find? fails = match value o with
      | .ok _ => none
      | .error error => some error.culprit := by
  rw [List.find?_singleton, fails, last]
  cases result <;> rfl

theorem find?_fails_parts (o : Outcome) :
    o.parts.find? fails = match value o with
      | .ok _ => none
      | .error error => some error.culprit := by
  induction o with
  | leaf l => exact find?_fails_singleton rfl
  | unary op x ih =>
    rw [Formula.parts, List.find?_append, ih]
    cases operand : value x with
    | error error =>
      -- found among the parts of the operand, and its failure is that of the whole
      rw [value, operand]
      rfl
    | ok v =>
      have last : value (.unary op x) = blame (.unary op x) (op.apply v) := by
        rw [value, operand]
        rfl
      rw [Option.none_or, find?_fails_singleton last]
  | binary op a b iha ihb =>
    rw [Formula.parts, List.find?_append, List.find?_append, iha, ihb]
    cases left : value a with
    | error error =>
      rw [value, left]
      rfl
    | ok v =>
      cases right : value b with
      | error error =>
        rw [value, left, right]
        rfl
      | ok w =>
        have last : value (.binary op a b) = blame (.binary op a b) (op.apply v w) := by
          rw [value, left, right]
          rfl
        rw [Option.none_or, Option.none_or, find?_fails_singleton last]

/-- A part of the outcome that is rightly blamed for the failure of the whole, and the right name for what went
wrong with it. -/
structure Blames (o culprit : Outcome) (fault : Fault) : Prop where
  first : o.parts.find? fails = some culprit
  operands : ∀ x ∈ culprit.operands, ∃ v, value x = .ok v
  division : fault = .divisionByZero ↔ DividesByZero culprit
  throwing : ∀ t, fault = .throwOverflow t ↔ StuckAt culprit t
  overflow : fault = .overflow ↔ ¬ DividesByZero culprit ∧ ∀ t, ¬ StuckAt culprit t

theorem blames_of_value {o : Outcome} {error : CalcError} (h : value o = .error error) :
    Blames o error.culprit error.fault := by
  have step : StepFails error.culprit error.fault := stepFails_of_value h
  refine ⟨?_, step.operands, step.divisionByZero_iff, step.throwOverflow_iff, ?_⟩
  · rw [find?_fails_parts, h]
  · rw [← step.divisionByZero_iff]
    simp only [← step.throwOverflow_iff]
    cases error.fault <;> simp

theorem Blames.unique {o culprit culprit' : Outcome} {fault fault' : Fault} (h : Blames o culprit fault)
    (h' : Blames o culprit' fault') : culprit' = culprit ∧ fault' = fault := by
  obtain rfl : culprit' = culprit := Option.some.inj (h'.first.symm.trans h.first)
  refine ⟨rfl, ?_⟩
  cases fault with
  | overflow => exact h'.overflow.mpr (h.overflow.mp rfl)
  | divisionByZero => exact h'.division.mpr (h.division.mp rfl)
  | throwOverflow t => exact (h'.throwing t).mpr ((h.throwing t).mp rfl)

/-- A calculation fails with the first part that comes to nothing, operands before operations and from the left, and
with the reason why it does: there is one such part and one such reason if it fails, and none if it does not. -/
theorem value_eq_error_iff {o : Outcome} {error : CalcError} :
    o.value = .error error ↔ Blames o error.culprit error.fault := by
  refine ⟨blames_of_value, fun blamed => ?_⟩
  cases failed : o.value with
  | ok v =>
    have first := blamed.first
    rw [find?_fails_parts, failed] at first
    cases first
  | error error' =>
    obtain ⟨culprit, fault⟩ := blamed.unique (blames_of_value failed)
    cases error
    cases culprit
    cases fault
    rfl

/-- Both operands of the product fail. The first part from the left that does is the power inside the left one. -/
example : Outcome.value (.binary .product (.unary .abs (.binary .power (num 0) (num (-1))))
      (.binary .sum (num 2147483647) (num 1))) =
    .error ⟨.binary .power (num 0) (num (-1)), .divisionByZero⟩ :=
  rfl

end Outcome
end DiceAlgebra
