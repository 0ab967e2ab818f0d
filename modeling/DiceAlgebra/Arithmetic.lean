/-! 32-bit results through exact integers. An operation is carried out in `Int` once and for all; what
happens at the edge of the range is decided after it, by `fit?` (refuse) or `saturate` (clamp). Both are
read back through `Int32.toInt`, so no later proof has to look at bits. -/
namespace DiceAlgebra

def fit? (n : Int) : Option Int32 :=
  if Int32.minValue.toInt ≤ n ∧ n ≤ Int32.maxValue.toInt then some (Int32.ofInt n) else none

theorem toInt_bounds (v : Int32) :
    Int32.minValue.toInt ≤ v.toInt ∧ v.toInt ≤ Int32.maxValue.toInt :=
  ⟨v.le_toInt, Int.le_of_lt_add_one v.toInt_lt⟩

@[simp] theorem fit?_toInt (v : Int32) : fit? v.toInt = some v := by
  rw [fit?, if_pos (toInt_bounds v), Int32.ofInt_toInt]

theorem fit?_eq_some_iff {n : Int} {v : Int32} : fit? n = some v ↔ v.toInt = n := by
  constructor
  · intro h
    rw [fit?] at h
    split at h
    · next range =>
      cases h
      exact Int32.toInt_ofInt_of_le range.1 (Int.lt_add_one_of_le range.2)
    · cases h
  · rintro rfl
    exact fit?_toInt v

theorem fit?_eq_none_iff {n : Int} : fit? n = none ↔ n < -2147483648 ∨ 2147483647 < n := by
  rw [fit?, Int32.toInt_minValue, Int32.toInt_maxValue]
  split <;> simp only [reduceCtorEq, true_iff, false_iff] <;> omega

/-- The 32-bit number nearest to this value. -/
def saturate (n : Int) : Int32 :=
  Int32.ofIntClamp n

@[simp] theorem saturate_toInt (v : Int32) : saturate v.toInt = v := by
  rw [saturate, Int32.ofIntClamp_toInt]

theorem toInt_saturate (n : Int) :
    (saturate n).toInt = max (-2147483648) (min n 2147483647) := by
  have lower : Int32.minValue.toInt = -2147483648 := rfl
  have upper : Int32.maxValue.toInt = 2147483647 := rfl
  rw [saturate, Int32.ofIntClamp]
  split
  · split
    · rw [Int32.toInt_ofIntLE]
      omega
    · rw [upper]
      omega
  · rw [lower]
    omega

def saturatingAdd (a b : Int32) : Int32 :=
  saturate (a.toInt + b.toInt)

def saturatingNeg (a : Int32) : Int32 :=
  saturate (-a.toInt)

theorem saturatingNeg_ne_zero {a : Int32} (h : a ≠ 0) : saturatingNeg a ≠ 0 := by
  intro zero
  have negated := toInt_saturate (-a.toInt)
  rw [← saturatingNeg, zero] at negated
  have apart : a.toInt ≠ (0 : Int32).toInt := fun same => h (Int32.toInt_inj.mp same)
  simp only [Int32.toInt_zero] at negated apart
  omega

/-- Past 32 only the parity of an exponent matters: a base of at least two is out of range either way,
and the powers of 0, 1 and -1 repeat with period two. With it no power grows past a thousand bits. -/
def cappedExponent (n : Nat) : Nat :=
  if n < 32 then n else 32 + n % 2

/-- Sums from the left in 64 bits, failing at the first partial sum out of range. -/
def sum64? (terms : List Int) : Option Int :=
  terms.foldlM (fun sum n =>
    let next := sum + n
    if Int64.minValue.toInt ≤ next ∧ next ≤ Int64.maxValue.toInt then some next else none) 0

end DiceAlgebra
