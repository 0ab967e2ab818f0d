import DiceAlgebra.Proofs.Pool.Range
import DiceAlgebra.Proofs.Pool.RoundTrip

/-! The range of a pool in 64 bits. What one entry comes to always has room there, but two entries can leave it: the
ends of the range are summed from the left, and this succeeds exactly if every sum on the way fits. While the counts
of a text add up to no more than `2 ^ 31`, it does, and so it does after contraction. -/
namespace DiceAlgebra

def Fits64 (n : Int) : Prop :=
  -9223372036854775808 ≤ n ∧ n ≤ 9223372036854775807

instance (n : Int) : Decidable (Fits64 n) :=
  inferInstanceAs (Decidable (_ ∧ _))

def add64? (sum n : Int) : Option Int :=
  if Fits64 (sum + n) then some (sum + n) else none

theorem sum64?_eq (terms : List Int) : sum64? terms = terms.foldlM add64? 0 :=
  rfl

section Sums

variable {α : Type} {f : α → Int} {as : List α}

theorem foldlM_add64?_eq_some_iff {start n : Int} (fits : Fits64 start) :
    (as.map f).foldlM add64? start = some n ↔
      (∀ row, row <+: as → Fits64 (start + (row.map f).sum)) ∧ n = start + (as.map f).sum := by
  induction as generalizing start with
  | nil =>
    simp only [List.map_nil, List.foldlM_nil, List.prefix_nil, forall_eq, List.sum_nil, Int.add_zero, fits, true_and]
    exact ⟨fun same => (Option.some.inj same).symm, fun same => congrArg some same.symm⟩
  | cons a as ih =>
    rw [List.map_cons, List.foldlM_cons, add64?]
    by_cases next : Fits64 (start + f a)
    · rw [if_pos next]
      change List.foldlM _ _ _ = _ ↔ _
      rw [ih next, List.sum_cons, ← Int.add_assoc]
      refine and_congr_left' ?_
      constructor
      · intro later row before
        rcases List.prefix_cons_iff.mp before with rfl | ⟨rest, rfl, among⟩
        · simpa using fits
        · rw [List.map_cons, List.sum_cons, ← Int.add_assoc]
          exact later rest among
      · intro all row before
        have longer := all (a :: row) ((List.prefix_cons_inj a).mpr before)
        rwa [List.map_cons, List.sum_cons, ← Int.add_assoc] at longer
    · rw [if_neg next]
      constructor
      · rintro ⟨⟩
      · rintro ⟨all, -⟩
        have first := all [a] ((List.prefix_cons_inj a).mpr (List.nil_prefix))
        rw [List.map_singleton, List.sum_singleton] at first
        exact absurd first next

theorem sum64?_map_eq_some_iff {n : Int} :
    sum64? (as.map f) = some n ↔ (∀ row, row <+: as → Fits64 (row.map f).sum) ∧ n = (as.map f).sum := by
  rw [sum64?_eq, foldlM_add64?_eq_some_iff (by decide)]
  simp only [Int.zero_add]

theorem sum64?_map_filter {keep : α → Bool} (idle : ∀ a ∈ as, keep a = false → f a = 0) :
    sum64? ((as.filter keep).map f) = sum64? (as.map f) := by
  rw [sum64?_eq, sum64?_eq]
  have start : Fits64 0 := by decide
  generalize (0 : Int) = sum at start
  induction as generalizing sum with
  | nil => rfl
  | cons a as ih =>
    rw [List.forall_mem_cons] at idle
    cases kept : keep a with
    | false =>
      rw [List.filter_cons_of_neg (Bool.eq_false_iff.mp kept), List.map_cons, List.foldlM_cons, idle.1 kept, add64?,
        Int.add_zero, if_pos start]
      exact ih idle.2 sum start
    | true =>
      rw [List.filter_cons_of_pos kept, List.map_cons, List.map_cons, List.foldlM_cons, List.foldlM_cons, add64?]
      by_cases next : Fits64 (sum + f a)
      · rw [if_pos next]
        exact ih idle.2 _ next
      · rw [if_neg next]
        rfl

end Sums

def lowestOf (numbers : Int × Nat) : Int :=
  if numbers.1 < 0 then numbers.1 * numbers.2 else numbers.1

def highestOf (numbers : Int × Nat) : Int :=
  if numbers.1 < 0 then numbers.1 else numbers.1 * numbers.2

namespace Dice

variable (d : Dice)

theorem minTotal_eq_lowestOf : d.minTotal = lowestOf d.numbers := by
  unfold minTotal lowestOf
  simp only [isNegative_iff]
  rfl

theorem maxTotal_eq_highestOf : d.maxTotal = highestOf d.numbers := by
  unfold maxTotal highestOf
  simp only [isNegative_iff]
  rfl

theorem natAbs_totals_le :
    d.minTotal.natAbs ≤ d.magnitude * d.faces.toNat ∧ d.maxTotal.natAbs ≤ d.magnitude * d.faces.toNat := by
  have some_face : d.magnitude ≤ d.magnitude * d.faces.toNat := Nat.le_mul_of_pos_right _ d.one_le_toNat_faces
  by_cases negative : d.isNegative = true
  · obtain ⟨lowest, highest⟩ := totals_of_isNegative negative
    rw [lowest, highest, ← Nat.cast_mul]
    omega
  · obtain ⟨lowest, highest⟩ := totals_of_not_isNegative negative
    rw [lowest, highest, ← Nat.cast_mul]
    omega

end Dice

section Bounds

variable {f : Dice → Int} {ds : List Dice}

theorem natAbs_sum_le_bulk (bounded : ∀ d, (f d).natAbs ≤ d.magnitude * d.faces.toNat) :
    (ds.map f).sum.natAbs ≤ bulk UInt32.toNat ds := by
  induction ds with
  | nil => exact Nat.le_refl 0
  | cons d ds ih =>
    have head := bounded d
    rw [List.map_cons, List.sum_cons, bulk_cons]
    omega

theorem bulk_toNat_le : bulk UInt32.toNat ds ≤ 4294967295 * bulk (fun _ => 1) ds := by
  induction ds with
  | nil => exact Nat.le_refl 0
  | cons d ds ih =>
    have faces := Nat.mul_le_mul_left d.magnitude (Nat.le_of_lt_succ d.faces.toNat_lt)
    rw [bulk_cons, bulk_cons, Nat.mul_add, Nat.mul_one, Nat.mul_comm 4294967295 d.magnitude]
    exact Nat.add_le_add faces ih

theorem sum64?_of_few (bounded : ∀ d, (f d).natAbs ≤ d.magnitude * d.faces.toNat)
    (few : bulk (fun _ => 1) ds ≤ 2147483648) : sum64? (ds.map f) = some (ds.map f).sum := by
  refine sum64?_map_eq_some_iff.mpr ⟨?_, rfl⟩
  rintro row ⟨rest, rfl⟩
  rw [bulk_append] at few
  have sum : (row.map f).sum.natAbs ≤ bulk UInt32.toNat row := natAbs_sum_le_bulk bounded
  have faces : bulk UInt32.toNat row ≤ 4294967295 * bulk (fun _ => 1) row := bulk_toNat_le
  constructor <;> omega

end Bounds

namespace Pool

variable (p : Pool)

theorem minTotal_eq_sum : p.minTotal = (p.entries.map Dice.minTotal).sum := by
  rw [List.sum_eq_foldr, List.foldr_map]
  rfl

theorem maxTotal_eq_sum : p.maxTotal = (p.entries.map Dice.maxTotal).sum := by
  rw [List.sum_eq_foldr, List.foldr_map]
  rfl

theorem bulk_contract_le (value : UInt32 → Nat) : bulk value p.contract.entries ≤ bulk value p.entries :=
  bulk_le_of_weight_le value fun faces => weight_contract_le faces p

variable {p}

theorem range64_of_few (few : bulk (fun _ => 1) p.entries ≤ 2147483648) :
    p.minTotal64? = some p.minTotal ∧ p.maxTotal64? = some p.maxTotal := by
  rw [minTotal_eq_sum, maxTotal_eq_sum]
  exact ⟨sum64?_of_few (fun d => d.natAbs_totals_le.1) few, sum64?_of_few (fun d => d.natAbs_totals_le.2) few⟩

open Grammar

/-- Segments that come to nothing are not among the entries, and not missed in the sum. -/
theorem sum64?_entries {end_of : Int × Nat → Int} {f : Dice → Int} (same : ∀ d : Dice, f d = end_of d.numbers)
    (nothing : ∀ faces, end_of (0, faces) = 0) {ss : List Segment}
    (read : p.entries.map Dice.numbers = (ss.map Segment.numbers).filter (·.1 ≠ 0)) :
    sum64? (p.entries.map f) = sum64? (ss.map fun s => end_of s.numbers) := by
  have through_numbers : p.entries.map f = (p.entries.map Dice.numbers).map end_of := by
    rw [List.map_map]
    exact List.map_congr_left fun d _ => same d
  have idle : ∀ n ∈ ss.map Segment.numbers, decide (n.1 ≠ 0) = false → end_of n = 0 := by
    rintro ⟨count, faces⟩ - zero
    obtain rfl : count = 0 := by simpa using zero
    exact nothing faces
  rw [through_numbers, read, sum64?_map_filter idle, List.map_map]
  rfl

theorem sum64?_entries_eq_some_iff {end_of : Int × Nat → Int} {f : Dice → Int}
    (same : ∀ d : Dice, f d = end_of d.numbers) (nothing : ∀ faces, end_of (0, faces) = 0) {ss : List Segment}
    (read : p.entries.map Dice.numbers = (ss.map Segment.numbers).filter (·.1 ≠ 0)) {n : Int} :
    sum64? (p.entries.map f) = some n ↔
      (∀ row, row <+: ss → Fits64 (row.map fun s => end_of s.numbers).sum) ∧ n = (p.entries.map f).sum := by
  have by_segments := sum64?_entries same nothing read
  constructor
  · intro sum
    exact ⟨(sum64?_map_eq_some_iff.mp (by_segments ▸ sum)).1, (sum64?_map_eq_some_iff.mp sum).2⟩
  · rintro ⟨fits, rfl⟩
    have sum := by_segments.trans (sum64?_map_eq_some_iff.mpr ⟨fits, rfl⟩)
    rw [sum, (sum64?_map_eq_some_iff.mp sum).2]

end Pool

open Grammar in
/-- The ends of the range of a sum that was read can be computed in 64 bits exactly if its segments, summed from the
left, stay within them on the way; the same goes for the entries after contraction. This is so if the counts add up
to `2 ^ 31` at most. -/
theorem Expr.range64_of_parse {text : String} {p : Pool} (read : Expr.parse text = .ok (.pool p)) :
    (∃ first more, Splits (text.toList.filter fun c => !Text.isBlank c) first more ∧ ∀ n,
      (p.minTotal64? = some n ↔
        (∀ row, row <+: first :: more → Fits64 (row.map fun s => lowestOf s.numbers).sum) ∧ n = p.minTotal) ∧
      (p.maxTotal64? = some n ↔
        (∀ row, row <+: first :: more → Fits64 (row.map fun s => highestOf s.numbers).sum) ∧ n = p.maxTotal)) ∧
    (∀ n,
      (p.contract.minTotal64? = some n ↔
        (∀ ds, ds <+: p.contract.entries → Fits64 (ds.map Dice.minTotal).sum) ∧ n = p.contract.minTotal) ∧
      (p.contract.maxTotal64? = some n ↔
        (∀ ds, ds <+: p.contract.entries → Fits64 (ds.map Dice.maxTotal).sum) ∧ n = p.contract.maxTotal)) ∧
    (bulk (fun _ => 1) p.entries ≤ 2147483648 →
      p.minTotal64? = some p.minTotal ∧ p.maxTotal64? = some p.maxTotal ∧
        p.contract.minTotal64? = some p.contract.minTotal ∧ p.contract.maxTotal64? = some p.contract.maxTotal) := by
  obtain ⟨first, more, split, entries⟩ := readPool_eq_ok_iff.mp (parse_eq_ok_pool_iff.mp read)
  rw [Text.toList_squeeze] at split
  refine ⟨⟨first, more, split, fun n => ?_⟩, fun n => ?_, fun few => ?_⟩
  · rw [p.minTotal_eq_sum, p.maxTotal_eq_sum]
    exact ⟨Pool.sum64?_entries_eq_some_iff Dice.minTotal_eq_lowestOf (fun _ => rfl) entries,
      Pool.sum64?_entries_eq_some_iff Dice.maxTotal_eq_highestOf (fun faces => Int.zero_mul faces) entries⟩
  · rw [p.contract.minTotal_eq_sum, p.contract.maxTotal_eq_sum]
    exact ⟨sum64?_map_eq_some_iff, sum64?_map_eq_some_iff⟩
  · have before := Pool.range64_of_few few
    have after := Pool.range64_of_few (Nat.le_trans (p.bulk_contract_le _) few)
    exact ⟨before.1, before.2, after.1, after.2⟩

theorem Expr.range64_of_parse_clamped :
    let text := "+2147483647D4294967295 +1D4294967295"
    let p : Pool := .ofList [.ofParts 2147483647 4294967295, .ofParts 1 4294967295]
    Expr.parse text = .ok (.pool p) ∧ bulk (fun _ => 1) p.entries ≤ 2147483648 ∧
      p.maxTotal64? = some 9223372034707292160 ∧ p.contract.maxTotal64? = some 9223372030412324865 := by
  intro text p
  have written : p.text = text := rfl
  have read : Expr.parse text = .ok (.pool p) := written ▸ parse_eq_ok_pool_iff.mpr (Pool.parse_text p)
  have few : bulk (fun _ => 1) p.entries ≤ 2147483648 := by decide
  have highest : p.maxTotal = 9223372034707292160 := by decide
  have contracted : p.contract.maxTotal = 9223372030412324865 := by decide
  obtain ⟨-, before, -, after⟩ := (range64_of_parse read).2.2 few
  exact ⟨read, few, highest ▸ before, contracted ▸ after⟩

/-- Two entries on each side of zero can leave 64 bits, and as their faces differ, contraction does not help. -/
theorem Expr.range64_none_of_parse :
    let text := "+2147483647D4294967295 +2147483647D4294967294 -2147483648D4294967293 -2147483648D4294967292"
    ∃ p : Pool, Expr.parse text = .ok (.pool p) ∧ p.minTotal64? = none ∧ p.maxTotal64? = none ∧
      p.contract.minTotal64? = none ∧ p.contract.maxTotal64? = none := by
  intro text
  let p : Pool := .ofList [.ofParts 2147483647 4294967295, .ofParts 2147483647 4294967294,
    .ofParts (-2147483648) 4294967293, .ofParts (-2147483648) 4294967292]
  have written : p.text = text := rfl
  have read : Expr.parse text = .ok (.pool p) := written ▸ parse_eq_ok_pool_iff.mpr (Pool.parse_text p)
  exact ⟨p, read, by decide, by decide, by decide, by decide⟩

end DiceAlgebra
