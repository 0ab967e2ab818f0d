import DiceAlgebra.Pool.Contract
import DiceAlgebra.Proofs.Sums

/-! Sums over the entries of a pool, and what contraction does to them. Give each number of faces a value:
the values of the entries then add up to the same number before and after the entries are merged, as long
as no merged count is clamped. The sizes of the counts tell when that is so, and merging never adds to
them. -/
namespace DiceAlgebra

theorem toInt_saturatingAdd {a b : Int32} (h : (a.toInt + b.toInt).natAbs ≤ 2147483647) :
    (saturatingAdd a b).toInt = a.toInt + b.toInt := by
  rw [saturatingAdd, toInt_saturate]
  omega

theorem natAbs_saturatingAdd_le (a b : Int32) :
    (saturatingAdd a b).toInt.natAbs ≤ a.toInt.natAbs + b.toInt.natAbs := by
  have bounds := toInt_bounds a
  rw [Int32.toInt_minValue, Int32.toInt_maxValue] at bounds
  rw [saturatingAdd, toInt_saturate]
  omega

theorem toInt_saturatingNeg {a : Int32} (h : a.toInt.natAbs ≤ 2147483647) :
    (saturatingNeg a).toInt = -a.toInt := by
  rw [saturatingNeg, toInt_saturate]
  omega

theorem toInt_saturatingNeg_of_ne {a : Int32} (h : a ≠ Int32.minValue) :
    (saturatingNeg a).toInt = -a.toInt := by
  have apart : a.toInt ≠ Int32.minValue.toInt := fun same => h (Int32.toInt_inj.mp same)
  have bounds := toInt_bounds a
  rw [Int32.toInt_minValue] at apart
  rw [Int32.toInt_minValue, Int32.toInt_maxValue] at bounds
  exact toInt_saturatingNeg (by omega)

theorem natAbs_saturatingNeg_le (a : Int32) : (saturatingNeg a).toInt.natAbs ≤ a.toInt.natAbs := by
  rw [saturatingNeg, toInt_saturate]
  omega

theorem Dice.isNegative_iff {d : Dice} : d.isNegative = true ↔ d.count.toInt < 0 := by
  rw [isNegative, decide_eq_true_iff, Int32.lt_iff_toInt_lt, Int32.toInt_zero]

theorem Dice.toInt_count (d : Dice) :
    d.count.toInt = if d.isNegative then -(d.magnitude : Int) else d.magnitude := by
  unfold magnitude
  split
  · next negative =>
    have := isNegative_iff.mp negative
    omega
  · next nonnegative =>
    have := mt isNegative_iff.mpr nonnegative
    omega

/-- The counts added up, each times the value of its faces. -/
def tally (value : UInt32 → Int) (ds : List Dice) : Int :=
  ds.foldr (fun d sum => d.count.toInt * value d.faces + sum) 0

/-- How many dice with this many faces there are, whatever their signs. -/
def weight (faces : UInt32) (ds : List Dice) : Nat :=
  ds.foldr (fun d sum => (if d.faces = faces then d.magnitude else 0) + sum) 0

section Sums

variable (value : UInt32 → Int) (faces : UInt32)

@[simp] theorem tally_nil : tally value [] = 0 :=
  rfl

@[simp] theorem tally_cons (d : Dice) (ds : List Dice) :
    tally value (d :: ds) = d.count.toInt * value d.faces + tally value ds :=
  rfl

@[simp] theorem weight_nil : weight faces [] = 0 :=
  rfl

@[simp] theorem weight_cons (d : Dice) (ds : List Dice) :
    weight faces (d :: ds) = (if d.faces = faces then d.magnitude else 0) + weight faces ds :=
  rfl

theorem tally_append (ds es : List Dice) :
    tally value (ds ++ es) = tally value ds + tally value es :=
  foldr_add_append (fun d : Dice => d.count.toInt * value d.faces) ds es

theorem weight_append (ds es : List Dice) :
    weight faces (ds ++ es) = weight faces ds + weight faces es :=
  foldr_add_append (fun d : Dice => if d.faces = faces then d.magnitude else 0) ds es

theorem tally_ofList (ds : List Dice) : tally value (Pool.ofList ds).entries = tally value ds := by
  rw [Pool.entries_ofList]
  induction ds with
  | nil => rfl
  | cons d ds ih =>
    rw [List.filter_cons, tally_cons]
    split
    · rw [tally_cons, ih]
    · next dropped =>
      have zero : d.count = 0 := by simpa using dropped
      rw [ih, zero, Int32.toInt_zero, Int.zero_mul, Int.zero_add]

theorem weight_ofList (ds : List Dice) :
    weight faces (Pool.ofList ds).entries = weight faces ds := by
  rw [Pool.entries_ofList]
  induction ds with
  | nil => rfl
  | cons d ds ih =>
    rw [List.filter_cons, weight_cons]
    split
    · rw [weight_cons, ih]
    · next dropped =>
      have zero : d.magnitude = 0 := by
        have count : d.count = 0 := by simpa using dropped
        rw [Dice.magnitude, count]
        rfl
      rw [ih, zero, ite_self, Nat.zero_add]

theorem magnitude_le_weight {d : Dice} {ds : List Dice} (h : d ∈ ds) :
    d.magnitude ≤ weight d.faces ds := by
  induction ds with
  | nil => cases h
  | cons e ds ih =>
    rw [weight_cons]
    rcases List.mem_cons.mp h with rfl | later
    · rw [if_pos rfl]
      exact Nat.le_add_right ..
    · exact Nat.le_add_left_of_le (ih later)

theorem weight_le_sum (ds : List Dice) : weight faces ds ≤ (ds.map Dice.magnitude).sum := by
  induction ds with
  | nil => exact Nat.le_refl 0
  | cons d ds ih =>
    rw [weight_cons, List.map_cons, List.sum_cons]
    split <;> omega

theorem weight_map_negated_le (ds : List Dice) :
    weight faces (ds.map Dice.negated) ≤ weight faces ds := by
  induction ds with
  | nil => exact Nat.le_refl _
  | cons d ds ih =>
    have head := natAbs_saturatingNeg_le d.count
    rw [List.map_cons, weight_cons, weight_cons, Dice.negated_faces]
    unfold Dice.magnitude
    rw [Dice.negated_count]
    split <;> omega

theorem tally_map_negated {ds : List Dice} (fits : ∀ faces, weight faces ds ≤ 2147483647) :
    tally value (ds.map Dice.negated) = -tally value ds := by
  have each : ∀ d ∈ ds, d.negated.count.toInt = -d.count.toInt := fun d h =>
    toInt_saturatingNeg (Nat.le_trans (magnitude_le_weight h) (fits d.faces))
  clear fits
  induction ds with
  | nil => rfl
  | cons d ds ih =>
    have head := each d (List.mem_cons_self ..)
    have rest := ih fun e h => each e (List.mem_cons_of_mem _ h)
    rw [List.map_cons, tally_cons, tally_cons, rest, head, Dice.negated_faces, Int.neg_mul]
    omega

end Sums

namespace Pool

theorem weight_insertGroup_le (faces : UInt32) (groups : List Dice) (d : Dice) :
    weight faces (insertGroup groups d) ≤ weight faces groups + weight faces [d] := by
  induction groups with
  | nil => simp [insertGroup]
  | cons g rest ih =>
    rw [insertGroup]
    split
    · rw [weight_cons, weight_cons]
      omega
    · split
      · next same =>
        have merged := natAbs_saturatingAdd_le g.count d.count
        rw [weight_cons, weight_cons, weight_cons, weight_nil]
        unfold Dice.magnitude
        rw [← same]
        by_cases here : g.faces = faces
        · simp only [here, ↓reduceIte]
          omega
        · simp only [here, ↓reduceIte]
          omega
      · rw [weight_cons, weight_cons, weight_cons, weight_nil]
        omega

theorem tally_insertGroup (value : UInt32 → Int) (groups : List Dice) (d : Dice)
    (fits : weight d.faces groups + d.magnitude ≤ 2147483647) :
    tally value (insertGroup groups d) = tally value groups + tally value [d] := by
  induction groups with
  | nil => simp [insertGroup]
  | cons g rest ih =>
    rw [weight_cons] at fits
    rw [insertGroup]
    split
    · have later := ih (by omega)
      rw [tally_cons, tally_cons, later, Int.add_assoc]
    · split
      · next same =>
        rw [if_pos same] at fits
        unfold Dice.magnitude at fits
        have merged : (saturatingAdd g.count d.count).toInt = g.count.toInt + d.count.toInt :=
          toInt_saturatingAdd (by omega)
        rw [tally_cons, tally_cons, tally_cons, tally_nil, ← same]
        change (saturatingAdd g.count d.count).toInt * value g.faces + tally value rest = _
        rw [merged, Int.add_mul]
        omega
      · rw [tally_cons, tally_cons, tally_cons, tally_nil]
        omega

theorem tally_foldl_insertGroup (value : UInt32 → Int) (groups ds : List Dice)
    (fits : ∀ faces, weight faces groups + weight faces ds ≤ 2147483647) :
    tally value (ds.foldl insertGroup groups) = tally value groups + tally value ds := by
  induction ds generalizing groups with
  | nil => simp
  | cons d ds ih =>
    have here := fits d.faces
    rw [weight_cons, if_pos rfl] at here
    have inserted := tally_insertGroup value groups d (by omega)
    have rest := ih (insertGroup groups d) fun faces => by
      have grown := weight_insertGroup_le faces groups d
      have bound := fits faces
      rw [weight_cons] at bound grown
      rw [weight_nil] at grown
      omega
    rw [List.foldl_cons, rest, inserted, tally_cons, tally_cons, tally_nil]
    omega

theorem weight_foldl_insertGroup_le (faces : UInt32) (groups ds : List Dice) :
    weight faces (ds.foldl insertGroup groups) ≤ weight faces groups + weight faces ds := by
  induction ds generalizing groups with
  | nil => exact Nat.le_add_right ..
  | cons d ds ih =>
    have grown := weight_insertGroup_le faces groups d
    have rest := ih (insertGroup groups d)
    rw [weight_cons, weight_nil] at grown
    rw [List.foldl_cons, weight_cons]
    omega

/-- Clamped or not, contraction adds no dice of any kind. -/
theorem weight_contract_le (faces : UInt32) (p : Pool) :
    weight faces p.contract.entries ≤ weight faces p.entries := by
  rw [contract, weight_ofList]
  simpa using weight_foldl_insertGroup_le faces [] p.entries

theorem tally_contract (value : UInt32 → Int) {p : Pool}
    (fits : ∀ faces, weight faces p.entries ≤ 2147483647) :
    tally value p.contract.entries = tally value p.entries := by
  rw [contract, tally_ofList, tally_foldl_insertGroup value [] p.entries (by simpa using fits)]
  simp

end Pool
end DiceAlgebra
