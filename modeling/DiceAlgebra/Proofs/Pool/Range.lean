import DiceAlgebra.Proofs.Outcome.Exact
import DiceAlgebra.Proofs.Pool.Bulk
import DiceAlgebra.Proofs.Roller.Honest

/-! The range of a pool. Dice that each show one of their faces come to totals between the lowest and the highest
one, and to every number between: `exists_exactTotal_iff` says so for dice of one kind and `exists_exactSum_iff` for
entries in a row. Whatever an honest roller shows is such a throw. -/
namespace DiceAlgebra

/-- A way for the dice to fall: each of them shows one of its faces. -/
structure Throw.Possible (d : Dice) (t : Throw) : Prop where
  dice : t.dice = d
  rolls : List.Forall₂ IsFace d.toThrow t.rolls

namespace Dice

variable {d : Dice}

theorem toThrow_of_isConstant (constant : d.isConstant = true) : d.toThrow = [] :=
  if_pos constant

theorem toThrow_of_not_isConstant (random : ¬ d.isConstant = true) :
    d.toThrow = List.replicate d.magnitude d.faces :=
  if_neg random

theorem one_lt_of_mem_toThrow {faces : UInt32} (h : faces ∈ d.toThrow) : 1 < faces := by
  by_cases constant : d.isConstant = true
  · rw [toThrow_of_isConstant constant] at h
    cases h
  · rw [toThrow_of_not_isConstant constant] at h
    rw [(List.mem_replicate.mp h).2]
    have apart : d.faces.toNat ≠ 1 := fun one => constant (isConstant_iff.mpr (UInt32.toNat_inj.mp one))
    exact UInt32.lt_iff_toNat_lt.mpr (Nat.lt_of_le_of_ne d.one_le_toNat_faces apart.symm)

theorem minTotal_le_maxTotal (d : Dice) : d.minTotal ≤ d.maxTotal := by
  have width := d.maxTotal_sub_minTotal
  have : (0 : Int) ≤ d.magnitude * (d.faces.toNat - 1 : Nat) := Int.natCast_nonneg _
  omega

theorem foldr_minTotal_le_foldr_maxTotal (ds : List Dice) :
    ds.foldr (fun d sum => d.minTotal + sum) 0 ≤ ds.foldr (fun d sum => d.maxTotal + sum) 0 := by
  induction ds with
  | nil => exact Int.le_refl 0
  | cons d ds ih => exact Int.add_le_add d.minTotal_le_maxTotal ih

theorem totals_of_isConstant (constant : d.isConstant = true) :
    d.minTotal = d.count.toInt ∧ d.maxTotal = d.count.toInt := by
  simp [minTotal, maxTotal, isConstant_iff.mp constant]

theorem totals_of_isNegative (negative : d.isNegative = true) :
    d.minTotal = -(d.magnitude * d.faces.toNat) ∧ d.maxTotal = -d.magnitude := by
  have count := d.toInt_count
  rw [if_pos negative] at count
  rw [minTotal, maxTotal, if_pos negative, if_pos negative, count, Int.neg_mul]
  exact ⟨rfl, rfl⟩

theorem totals_of_not_isNegative (positive : ¬ d.isNegative = true) :
    d.minTotal = d.magnitude ∧ d.maxTotal = d.magnitude * d.faces.toNat := by
  have count := d.toInt_count
  rw [if_neg positive] at count
  rw [minTotal, maxTotal, if_neg positive, if_neg positive, count]
  exact ⟨rfl, rfl⟩

end Dice

namespace Throw

theorem sumRolls_bounds {asked rolls : List UInt32} {faces : UInt32} (same : ∀ f ∈ asked, f = faces)
    (all : List.Forall₂ IsFace asked rolls) :
    asked.length ≤ sumRolls rolls ∧ sumRolls rolls ≤ asked.length * faces.toNat := by
  induction all with
  | nil => simp
  | cons face _ ih =>
    rw [List.forall_mem_cons] at same
    have bounds := ih same.2
    have first := isFace_iff.mp (same.1 ▸ face)
    rw [sumRolls_cons, List.length_cons, Nat.cast_add, Int.add_mul]
    omega

theorem exists_sumRolls_eq {dice : Nat} {faces : UInt32} {n : Int} (above : dice ≤ n)
    (below : n ≤ dice * faces.toNat) :
    ∃ rolls, List.Forall₂ IsFace (List.replicate dice faces) rolls ∧ sumRolls rolls = n := by
  induction dice generalizing n with
  | zero =>
    refine ⟨[], .nil, ?_⟩
    rw [sumRolls_nil]
    omega
  | succ dice ih =>
    rw [Nat.cast_add, Int.add_mul] at below
    have some_face : 1 ≤ faces.toNat := by
      by_contra none
      rw [Nat.lt_one_iff.mp (Nat.not_le.mp none)] at below
      omega
    have apiece : (dice : Int) ≤ dice * faces.toNat := by
      exact_mod_cast Nat.le_mul_of_pos_right dice some_face
    -- the first die shows no more than the others need
    obtain ⟨value, value_eq⟩ : ∃ value : UInt32, (value.toNat : Int) = max 1 (n - dice * faces.toNat) := by
      have fits := faces.toNat_lt
      refine ⟨UInt32.ofNat (max 1 (n - dice * faces.toNat)).toNat, ?_⟩
      rw [UInt32.toNat_ofNat_of_lt' (by change _ < 4294967296; omega)]
      omega
    obtain ⟨rolls, rest, rest_eq⟩ := @ih (n - value.toNat) (by omega) (by omega)
    refine ⟨value :: rolls, .cons (isFace_iff.mpr (by omega)) rest, ?_⟩
    rw [sumRolls_cons, rest_eq]
    omega

theorem exists_sumRolls_iff {dice : Nat} {faces : UInt32} {n : Int} :
    (∃ rolls, List.Forall₂ IsFace (List.replicate dice faces) rolls ∧ sumRolls rolls = n) ↔
      dice ≤ n ∧ n ≤ dice * faces.toNat := by
  constructor
  · rintro ⟨rolls, all, rfl⟩
    have bounds := sumRolls_bounds (fun f member => (List.mem_replicate.mp member).2) all
    rwa [List.length_replicate] at bounds
  · exact fun bounds => exists_sumRolls_eq bounds.1 bounds.2

theorem exists_exactTotal_iff {d : Dice} {n : Int} :
    (∃ t, Possible d t ∧ t.exactTotal = n) ↔ d.minTotal ≤ n ∧ n ≤ d.maxTotal := by
  have unfolded : (∃ t, Possible d t ∧ t.exactTotal = n) ↔
      ∃ rolls, List.Forall₂ IsFace d.toThrow rolls ∧ exactTotal ⟨d, rolls⟩ = n := by
    constructor
    · rintro ⟨⟨_, rolls⟩, ⟨rfl, all⟩, total⟩
      exact ⟨rolls, all, total⟩
    · rintro ⟨rolls, all, total⟩
      exact ⟨⟨d, rolls⟩, ⟨rfl, all⟩, total⟩
  rw [unfolded]
  unfold exactTotal
  by_cases constant : d.isConstant = true
  · obtain ⟨lowest, highest⟩ := Dice.totals_of_isConstant constant
    simp only [if_pos constant, Dice.toThrow_of_isConstant constant, List.forall₂_nil_left_iff, exists_eq_left]
    omega
  simp only [if_neg constant, Dice.toThrow_of_not_isConstant constant]
  by_cases negative : d.isNegative = true
  · obtain ⟨lowest, highest⟩ := Dice.totals_of_isNegative negative
    simp only [if_pos negative, neg_eq_iff_eq_neg, exists_sumRolls_iff]
    omega
  · obtain ⟨lowest, highest⟩ := Dice.totals_of_not_isNegative negative
    simp only [if_neg negative, exists_sumRolls_iff]
    omega

theorem exists_exactSum_iff {ds : List Dice} {n : Int} :
    (∃ throws, List.Forall₂ Possible ds throws ∧ exactSum throws = n) ↔
      ds.foldr (fun d sum => d.minTotal + sum) 0 ≤ n ∧ n ≤ ds.foldr (fun d sum => d.maxTotal + sum) 0 := by
  induction ds generalizing n with
  | nil =>
    simp only [List.forall₂_nil_left_iff, exists_eq_left, exactSum_nil, List.foldr_nil]
    omega
  | cons d ds ih =>
    have range := Dice.foldr_minTotal_le_foldr_maxTotal ds
    rw [List.foldr_cons, List.foldr_cons]
    generalize ds.foldr (fun d sum => d.minTotal + sum) 0 = lowest at ih range ⊢
    generalize ds.foldr (fun d sum => d.maxTotal + sum) 0 = highest at ih range ⊢
    have width := d.minTotal_le_maxTotal
    constructor
    · rintro ⟨_, all, rfl⟩
      cases all with
      | @cons _ t _ throws possible rest =>
        have first := exists_exactTotal_iff.mp ⟨t, possible, rfl⟩
        have later := ih.mp ⟨throws, rest, rfl⟩
        rw [exactSum_cons]
        omega
    · rintro ⟨above, below⟩
      -- the first dice come to no more than the others need
      obtain ⟨t, possible, total⟩ :=
        (@exists_exactTotal_iff d (max d.minTotal (n - highest))).mpr (by omega)
      obtain ⟨throws, rest, sum⟩ := (@ih (n - t.exactTotal)).mpr (by omega)
      refine ⟨t :: throws, .cons possible rest, ?_⟩
      rw [exactSum_cons, sum]
      omega

end Throw

section Runs

variable {σ : Type} [Roller σ] {s t : σ}

theorem Roller.Honest.possible_of_run {d : Dice} {thrown : Throw} (honest : Honest s)
    (h : d.roll.run s = .ok thrown t) : Throw.Possible d thrown ∧ Honest t := by
  unfold Dice.roll at h
  split at h
  · next constant =>
    cases h
    refine ⟨⟨rfl, ?_⟩, honest⟩
    rw [d.toThrow_of_isConstant constant]
    exact .nil
  · next random =>
    split at h
    · cases h
    · obtain ⟨rolls, rolled, rfl⟩ := run_map_eq_ok.mp h
      rw [← d.toThrow_of_not_isConstant random] at rolled
      have each : ∀ faces ∈ d.toThrow, ∀ (s t : σ) value, Honest s → (rollDie faces).run s = .ok value t →
          IsFace faces value ∧ Honest t := fun faces among s t value honest run =>
        honest.step (d.one_lt_of_mem_toThrow among) (run_rollDie_eq_ok.mp run)
      obtain ⟨all, finish⟩ := forall₂_of_run_mapM each honest rolled
      exact ⟨⟨rfl, all⟩, finish⟩

theorem Pool.possible_of_run {p : Pool} {throws : List Throw} (honest : Roller.Honest s)
    (h : p.roll.run s = .ok throws t) : List.Forall₂ Throw.Possible p.entries throws :=
  (forall₂_of_run_mapM (fun _ _ _ _ _ honest run => honest.possible_of_run run) honest h).1

end Runs

namespace Pool

theorem exists_exactSum_iff {p : Pool} {n : Int} :
    (∃ throws, List.Forall₂ Throw.Possible p.entries throws ∧ Throw.exactSum throws = n) ↔
      p.minTotal ≤ n ∧ n ≤ p.maxTotal :=
  Throw.exists_exactSum_iff

theorem minTotal_le_maxTotal (p : Pool) : p.minTotal ≤ p.maxTotal :=
  Dice.foldr_minTotal_le_foldr_maxTotal p.entries

/-- With an honest roller the total is never outside of the range of the pool, and both ends of the range are totals
of dice that show one of their faces each. -/
theorem total_in_range :
    (∀ (p : Pool) (σ : Type) [Roller σ] (s t : σ) (throws : List Throw) (v : Int32), Roller.Honest s →
      p.roll.run s = .ok throws t → Outcome.value (.pool throws) = .ok v →
        p.minTotal ≤ v.toInt ∧ v.toInt ≤ p.maxTotal) ∧
    ∀ p : Pool,
      (∃ throws, List.Forall₂ Throw.Possible p.entries throws ∧ Throw.exactSum throws = p.minTotal) ∧
      ∃ throws, List.Forall₂ Throw.Possible p.entries throws ∧ Throw.exactSum throws = p.maxTotal := by
  constructor
  · intro p σ _ s t throws v honest rolled total
    have exact_total : v.toInt = Throw.exactSum throws :=
      (Outcome.Leaf.value_eq_ok_iff_inRange.mp (Outcome.value_leaf_eq_ok_iff.mp total)).2
    exact exists_exactSum_iff.mp ⟨throws, possible_of_run honest rolled, exact_total.symm⟩
  · intro p
    have width := p.minTotal_le_maxTotal
    exact ⟨exists_exactSum_iff.mpr ⟨Int.le_refl _, width⟩, exists_exactSum_iff.mpr ⟨width, Int.le_refl _⟩⟩

theorem total_in_range_seeded :
    let p : Pool := .ofList [.ofParts 3 6, .constant (-4), .ofParts (-2) 8]
    let throws : List Throw := [⟨.ofParts 3 6, [3, 2, 3]⟩, ⟨.constant (-4), []⟩, ⟨.ofParts (-2) 8, [6, 8]⟩]
    ∃ t, Roller.Honest (Source.seeded 7) ∧ p.roll.run (Source.seeded 7) = .ok throws t ∧
      Outcome.value (.pool throws) = .ok (-10) ∧ p.minTotal = -17 ∧ p.maxTotal = 12 ∧
      p.minTotal ≤ (-10 : Int32).toInt ∧ (-10 : Int32).toInt ≤ p.maxTotal := by
  intro p throws
  have honest : Roller.Honest (Source.seeded 7) := Source.honest_random _
  have rolled : p.roll.run (Source.seeded 7) = .ok throws _ := rfl
  have total : Outcome.value (.pool throws) = .ok (-10) := rfl
  exact ⟨_, honest, rolled, total, by decide, by decide,
    total_in_range.1 p Source _ _ throws (-10) honest rolled total⟩

end Pool
end DiceAlgebra
