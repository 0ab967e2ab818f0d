import DiceAlgebra.Outcome

/-! What a throw comes to in exact numbers. Partial sums are checked on the way, but rolls have no sign, so
no partial sum is out of range unless the whole sum is. -/
namespace DiceAlgebra

theorem checked_eq_ok_iff {n : Int} {v : Int32} : checked n = .ok v ↔ v.toInt = n := by
  rw [← fit?_eq_some_iff, checked]
  cases fit? n <;> simp

theorem checked_eq_error_iff {n : Int} {fault : Fault} :
    checked n = .error fault ↔ fit? n = none ∧ fault = .overflow := by
  rw [checked]
  cases fit? n <;> simp [eq_comm]

theorem bind_eq_ok_iff {ε α β : Type} {x : Except ε α} {f : α → Except ε β} {b : β} :
    (x >>= f) = .ok b ↔ ∃ a, x = .ok a ∧ f a = .ok b := by
  cases x <;> simp [bind, Except.bind]

theorem bind_eq_error_iff {ε α β : Type} {x : Except ε α} {f : α → Except ε β} {e : ε} :
    (x >>= f) = .error e ↔ x = .error e ∨ ∃ a, x = .ok a ∧ f a = .error e := by
  cases x <;> simp [bind, Except.bind]

def Fits (n : Int) : Prop :=
  -2147483648 ≤ n ∧ n ≤ 2147483647

instance (n : Int) : Decidable (Fits n) :=
  inferInstanceAs (Decidable (_ ∧ _))

theorem fits_toInt (v : Int32) : Fits v.toInt :=
  toInt_bounds v

theorem exists_toInt_eq {n : Int} (h : Fits n) : ∃ v : Int32, v.toInt = n :=
  ⟨Int32.ofInt n, Int32.toInt_ofInt_of_le h.1 (Int.lt_add_one_of_le h.2)⟩

namespace Throw

def sumRolls (rolls : List UInt32) : Int :=
  rolls.foldr (fun roll sum => roll.toNat + sum) 0

@[simp] theorem sumRolls_nil : sumRolls [] = 0 :=
  rfl

@[simp] theorem sumRolls_cons (roll : UInt32) (rolls : List UInt32) :
    sumRolls (roll :: rolls) = roll.toNat + sumRolls rolls :=
  rfl

theorem sumRolls_nonneg (rolls : List UInt32) : 0 ≤ sumRolls rolls := by
  induction rolls with
  | nil => exact Int.le_refl 0
  | cons roll rolls ih =>
    rw [sumRolls_cons]
    omega

/-- The sum of the rolls under the sign of the dice, or the value of a constant. -/
def exactTotal (t : Throw) : Int :=
  if t.dice.isConstant then t.dice.count.toInt
  else if t.dice.isNegative then -sumRolls t.rolls
  else sumRolls t.rolls

/-- A constant is not rolled. Otherwise the bound is on the rolls without their sign, so that it is the same
on both sides of zero. -/
def InRange (t : Throw) : Prop :=
  t.dice.isConstant = true ∨ sumRolls t.rolls ≤ 2147483647

theorem fits_exactTotal {t : Throw} (h : t.InRange) : Fits t.exactTotal := by
  unfold exactTotal
  split
  · exact fits_toInt t.dice.count
  · next random =>
    have below := h.resolve_left random
    have nonneg := sumRolls_nonneg t.rolls
    split <;> constructor <;> omega

theorem sum_rolls_eq_some_iff {rolls : List UInt32} {start total : Int32} (nonneg : 0 ≤ start.toInt) :
    rolls.foldlM (fun (sum : Int32) roll => fit? (sum.toInt + roll.toNat)) start = some total ↔
      total.toInt = start.toInt + sumRolls rolls := by
  induction rolls generalizing start with
  | nil =>
    rw [List.foldlM_nil, sumRolls_nil, Int.add_zero, Int32.toInt_inj]
    exact ⟨fun h => (Option.some.inj h).symm, fun h => congrArg some h.symm⟩
  | cons roll rolls ih =>
    rw [List.foldlM_cons, sumRolls_cons]
    change Option.bind _ _ = _ ↔ _
    rw [Option.bind_eq_some_iff]
    constructor
    · rintro ⟨next, fits, rest⟩
      have step := fit?_eq_some_iff.mp fits
      rw [(ih (by omega)).mp rest, step, Int.add_assoc]
    · intro h
      -- what is still to come is not negative, so the next partial sum is below a total that fits
      have later := sumRolls_nonneg rolls
      have above := (fits_toInt total).2
      obtain ⟨next, step⟩ := exists_toInt_eq (n := start.toInt + roll.toNat)
        ⟨by omega, by omega⟩
      exact ⟨next, fit?_eq_some_iff.mpr step, (ih (by omega)).mpr (by omega)⟩

theorem total?_eq_some_iff {t : Throw} {total : Int32} :
    t.total? = some total ↔ t.InRange ∧ total.toInt = t.exactTotal := by
  unfold total? InRange exactTotal
  by_cases constant : t.dice.isConstant = true
  · simp only [constant, ↓reduceIte, true_or, true_and, Option.some.injEq]
    rw [eq_comm, Int32.toInt_inj]
  simp only [constant, Bool.false_eq_true, ↓reduceIte, false_or]
  change Option.bind _ _ = _ ↔ _
  rw [Option.bind_eq_some_iff]
  have nonneg := sumRolls_nonneg t.rolls
  have start : (0 : Int) ≤ (0 : Int32).toInt := Int.le_refl 0
  simp only [sum_rolls_eq_some_iff start, Int32.toInt_zero, Int.zero_add]
  constructor
  · rintro ⟨sum, sum_eq, signed⟩
    have below := (fits_toInt sum).2
    refine ⟨by omega, ?_⟩
    split at signed
    · next negative => rw [if_pos negative, fit?_eq_some_iff.mp signed, sum_eq]
    · next positive =>
      cases signed
      rw [if_neg positive, sum_eq]
  · rintro ⟨below, total_eq⟩
    obtain ⟨sum, sum_eq⟩ := exists_toInt_eq (n := sumRolls t.rolls) ⟨by omega, below⟩
    refine ⟨sum, sum_eq, ?_⟩
    split at total_eq
    · next negative => rw [if_pos negative, fit?_eq_some_iff, total_eq, sum_eq]
    · next positive =>
      rw [if_neg positive, Option.some.injEq, ← Int32.toInt_inj, total_eq, sum_eq]

/-- The rolls added up from the left before the sign is taken, each partial sum in 32 bits. -/
def runningSum? (rolls : List UInt32) : Option Int32 :=
  rolls.foldlM (fun (sum : Int32) roll => fit? (sum.toInt + roll.toNat)) 0

theorem total?_eq (t : Throw) :
    t.total? = if t.dice.isConstant then some t.dice.count
      else (runningSum? t.rolls).bind fun sum => if t.dice.isNegative then fit? (-sum.toInt) else some sum :=
  rfl

theorem runningSum?_eq_some_iff {rolls : List UInt32} {sum : Int32} :
    runningSum? rolls = some sum ↔ sum.toInt = sumRolls rolls := by
  have start : (0 : Int) ≤ (0 : Int32).toInt := Int.le_refl 0
  rw [runningSum?, sum_rolls_eq_some_iff start, Int32.toInt_zero, Int.zero_add]

/-- The lowest number is the only one without an opposite, and no sum of rolls is below zero. -/
theorem fit?_neg_of_runningSum? {rolls : List UInt32} {sum : Int32} (added : runningSum? rolls = some sum) :
    (fit? (-sum.toInt)).isSome = true := by
  have nonneg := sumRolls_nonneg rolls
  rw [← runningSum?_eq_some_iff.mp added] at nonneg
  have bounds := fits_toInt sum
  rw [Option.isSome_iff_ne_none, ne_eq, fit?_eq_none_iff]
  unfold Fits at bounds
  omega

theorem total?_eq_none_iff {t : Throw} :
    t.total? = none ↔ t.dice.isConstant = false ∧ 2147483647 < sumRolls t.rolls := by
  have outside : t.total? = none ↔ ¬ t.InRange := by
    rw [Option.eq_none_iff_forall_ne_some]
    constructor
    · intro missing fits
      obtain ⟨v, value⟩ := exists_toInt_eq (fits_exactTotal fits)
      exact missing v (total?_eq_some_iff.mpr ⟨fits, value⟩)
    · exact fun outside v total => outside (total?_eq_some_iff.mp total).1
  rw [outside, InRange, not_or, Bool.not_eq_true, Int.not_le]

theorem total?_ne_minValue {t : Throw} (random : t.dice.isConstant = false) : t.total? ≠ some Int32.minValue := by
  intro lowest
  obtain ⟨fits, value⟩ := total?_eq_some_iff.mp lowest
  have below := fits.resolve_left (Bool.eq_false_iff.mp random)
  have nonneg := sumRolls_nonneg t.rolls
  rw [exactTotal, random, Int32.toInt_minValue] at value
  split at value
  · contradiction
  · split at value <;> omega

/-- A constant comes to its count, whatever rolls stand beside it. Other dice have no total exactly if their rolls, as
many as there may be, add up to more than the highest number. Taking the sign at the end never fails. -/
theorem total?_exact (t : Throw) :
    (t.dice.isConstant = true → t.total? = some t.dice.count) ∧
      (t.dice.isConstant = false →
        (t.total? = none ↔ 2147483647 < sumRolls t.rolls) ∧
          (∀ v, t.total? = some v ↔ sumRolls t.rolls ≤ 2147483647 ∧
            v.toInt = if t.dice.count < 0 then -sumRolls t.rolls else sumRolls t.rolls) ∧
          (∀ sum, runningSum? t.rolls = some sum → (fit? (-sum.toInt)).isSome = true) ∧
          t.total? ≠ some Int32.minValue) := by
  refine ⟨fun constant => ?_, fun random => ⟨?_, fun v => ?_, fun sum => fit?_neg_of_runningSum?,
    total?_ne_minValue random⟩⟩
  · rw [total?_eq, if_pos constant]
  · rw [total?_eq_none_iff, random, eq_self, true_and]
  · have varies := Bool.eq_false_iff.mp random
    rw [total?_eq_some_iff, InRange, or_iff_right varies, exactTotal, if_neg varies]
    simp only [Dice.isNegative, decide_eq_true_eq]

theorem total?_exact_edge :
    let edge : Throw := ⟨.ofParts (-2) 6, [2147483645, 1, 1]⟩
    let above : Throw := ⟨.ofParts 2 6, [2147483648]⟩
    let constant : Throw := ⟨.constant Int32.minValue, [4294967295]⟩
    (edge.dice.isConstant = false ∧ edge.total? = some (-2147483647)) ∧
      (above.dice.isConstant = false ∧ above.total? = none) ∧
      constant.dice.isConstant = true ∧ constant.total? = some Int32.minValue := by
  intro edge above constant
  have total := ((total?_exact edge).2 rfl).2.1 (-2147483647)
  have missing := ((total?_exact above).2 rfl).1
  exact ⟨⟨rfl, total.mpr (by decide)⟩, ⟨rfl, missing.mpr (by decide)⟩, rfl, (total?_exact constant).1 rfl⟩

def exactSum (throws : List Throw) : Int :=
  throws.foldr (fun t sum => t.exactTotal + sum) 0

@[simp] theorem exactSum_nil : exactSum [] = 0 :=
  rfl

@[simp] theorem exactSum_cons (t : Throw) (throws : List Throw) :
    exactSum (t :: throws) = t.exactTotal + exactSum throws :=
  rfl

end Throw

namespace Outcome.Leaf

theorem total_eq_ok_iff {t : Throw} {v : Int32} :
    total t = .ok v ↔ t.InRange ∧ v.toInt = t.exactTotal := by
  rw [← Throw.total?_eq_some_iff, total]
  cases t.total? <;> simp

theorem total_eq_error_iff {t : Throw} {fault : Fault} :
    total t = .error fault ↔ t.total? = none ∧ fault = .throwOverflow t := by
  rw [total]
  cases t.total? <;> simp [eq_comm]

theorem sum_throws_eq_ok_iff {throws : List Throw} {start v : Int32} :
    throws.foldlM (fun sum t => do checked (sum.toInt + (← total t).toInt)) start = .ok v ↔
      (∀ t ∈ throws, t.InRange) ∧
        (∀ first, first <+: throws → Fits (start.toInt + Throw.exactSum first)) ∧
        v.toInt = start.toInt + Throw.exactSum throws := by
  induction throws generalizing start with
  | nil =>
    simp only [List.foldlM_nil, List.prefix_nil, forall_eq, Throw.exactSum_nil, Int.add_zero,
      List.not_mem_nil, false_imp_iff, implies_true, true_and, fits_toInt]
    rw [Int32.toInt_inj]
    exact ⟨fun h => (Except.ok.inj h).symm, fun h => congrArg Except.ok h.symm⟩
  | cons t throws ih =>
    rw [List.foldlM_cons, bind_eq_ok_iff]
    simp only [bind_eq_ok_iff, total_eq_ok_iff, checked_eq_ok_iff, ih, Throw.exactSum_cons,
      List.mem_cons, forall_eq_or_imp]
    constructor
    · rintro ⟨sum, ⟨w, ⟨fits, w_eq⟩, sum_eq⟩, rest_fit, sums_fit, v_eq⟩
      rw [w_eq] at sum_eq
      simp only [sum_eq, Int.add_assoc] at sums_fit v_eq
      refine ⟨⟨fits, rest_fit⟩, ?_, v_eq⟩
      intro first before
      rcases List.prefix_cons_iff.mp before with rfl | ⟨later, rfl, among⟩
      · rw [Throw.exactSum_nil, Int.add_zero]
        exact fits_toInt start
      · exact sums_fit later among
    · rintro ⟨⟨fits, rest_fit⟩, sums_fit, v_eq⟩
      obtain ⟨w, w_eq⟩ := exists_toInt_eq (Throw.fits_exactTotal fits)
      have next : Fits (start.toInt + Throw.exactSum [t]) :=
        sums_fit [t] (List.prefix_cons_iff.mpr (Or.inr ⟨[], rfl, List.nil_prefix⟩))
      rw [Throw.exactSum_cons, Throw.exactSum_nil, Int.add_zero] at next
      obtain ⟨sum, sum_eq⟩ := exists_toInt_eq next
      refine ⟨sum, ⟨w, ⟨fits, w_eq⟩, by rw [sum_eq, w_eq]⟩, rest_fit, ?_, by rw [v_eq, sum_eq, Int.add_assoc]⟩
      intro first before
      have later := sums_fit (t :: first) (List.prefix_cons_inj t |>.mpr before)
      rwa [Throw.exactSum_cons, ← Int.add_assoc, ← sum_eq] at later

end Outcome.Leaf
end DiceAlgebra
