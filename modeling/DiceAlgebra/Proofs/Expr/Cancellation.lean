import DiceAlgebra.Proofs.Expr.Additive
import DiceAlgebra.Proofs.Pool.Layout
import DiceAlgebra.Proofs.Pool.Tally
import DiceAlgebra.Proofs.Throw.Total

/-! What an expression leaves when it is taken away from itself. For each number of faces its counts are added up
and then taken away in the same order. Without clamping that comes back to zero; the lowest count has no
counterpart to be taken away, and a sum that is clamped on the way up need not be clamped on the way down. -/
namespace DiceAlgebra

def unclampedSum (cs : List Int32) : Int :=
  cs.foldr (fun c sum => c.toInt + sum) 0

@[simp] theorem unclampedSum_nil : unclampedSum [] = 0 :=
  rfl

@[simp] theorem unclampedSum_cons (c : Int32) (cs : List Int32) :
    unclampedSum (c :: cs) = c.toInt + unclampedSum cs :=
  rfl

theorem unclampedSum_append (cs ds : List Int32) :
    unclampedSum (cs ++ ds) = unclampedSum cs + unclampedSum ds :=
  foldr_add_append Int32.toInt cs ds

theorem unclampedSum_map_saturatingNeg {cs : List Int32} (h : ∀ c ∈ cs, c ≠ Int32.minValue) :
    unclampedSum (cs.map saturatingNeg) = -unclampedSum cs := by
  induction cs with
  | nil => rfl
  | cons c cs ih =>
    rcases List.forall_mem_cons.mp h with ⟨head, rest⟩
    rw [List.map_cons, unclampedSum_cons, unclampedSum_cons, toInt_saturatingNeg_of_ne head, ih rest]
    omega

theorem toInt_foldl_saturatingAdd_of_fits {cs : List Int32} {start : Int32}
    (fits : ∀ first, first <+: cs → Fits (start.toInt + unclampedSum first)) :
    (cs.foldl saturatingAdd start).toInt = start.toInt + unclampedSum cs := by
  induction cs generalizing start with
  | nil => simp
  | cons c cs ih =>
    have next : (saturatingAdd start c).toInt = start.toInt + c.toInt := by
      have inside := fits [c] (List.prefix_cons_inj c |>.mpr List.nil_prefix)
      rw [unclampedSum_cons, unclampedSum_nil, Int.add_zero] at inside
      rw [saturatingAdd, toInt_saturate]
      unfold Fits at inside
      omega
    have later : ∀ first, first <+: cs → Fits ((saturatingAdd start c).toInt + unclampedSum first) := by
      intro first before
      rw [next, Int.add_assoc]
      exact fits (c :: first) (List.prefix_cons_inj c |>.mpr before)
    rw [List.foldl_cons, ih later, next, unclampedSum_cons, Int.add_assoc]

/-- Added up and then taken away in the same order, each partial sum clamped, the counts come back to zero. -/
def Cancels (cs : List Int32) : Prop :=
  clampedSum (cs ++ cs.map saturatingNeg) = 0

/-- Each count has a counterpart on the other side of zero, and neither the first counts nor the last ones add up
to something out of range, wherever the list is divided. -/
structure Reversible (cs : List Int32) : Prop where
  negatable : ∀ c ∈ cs, c ≠ Int32.minValue
  summed : ∀ first last, first ++ last = cs → Fits (unclampedSum first) ∧ Fits (unclampedSum last)

theorem Reversible.toInt_clampedSum {cs : List Int32} (reversible : Reversible cs) :
    (clampedSum cs).toInt = unclampedSum cs := by
  have fits : ∀ first, first <+: cs → Fits ((0 : Int32).toInt + unclampedSum first) := by
    rintro first ⟨last, divided⟩
    rw [Int32.toInt_zero, Int.zero_add]
    exact (reversible.summed first last divided).1
  rw [clampedSum, toInt_foldl_saturatingAdd_of_fits fits, Int32.toInt_zero, Int.zero_add]

theorem Reversible.cancels {cs : List Int32} (reversible : Reversible cs) : Cancels cs := by
  have up := reversible.toInt_clampedSum
  -- once the first counts are taken away again, the last ones are what is left
  have down : ∀ first, first <+: cs.map saturatingNeg →
      Fits ((clampedSum cs).toInt + unclampedSum first) := by
    intro _ before
    obtain ⟨first, ⟨last, divided⟩, rfl⟩ := List.prefix_map_iff.mp before
    have negatable : ∀ c ∈ first, c ≠ Int32.minValue := fun c member =>
      reversible.negatable c (divided ▸ List.mem_append_left last member)
    have left : unclampedSum cs - unclampedSum first = unclampedSum last := by
      rw [← divided, unclampedSum_append]
      omega
    rw [up, unclampedSum_map_saturatingNeg negatable, ← Int.sub_eq_add_neg, left]
    exact (reversible.summed first last divided).2
  rw [Cancels, clampedSum, List.foldl_append, ← clampedSum, ← Int32.toInt_inj,
    toInt_foldl_saturatingAdd_of_fits down, up, unclampedSum_map_saturatingNeg reversible.negatable,
    Int32.toInt_zero]
  omega

theorem natAbs_unclampedSum_le_weight (faces : UInt32) (ds : List Dice) :
    (unclampedSum (countsOf faces ds)).natAbs ≤ weight faces ds := by
  induction ds with
  | nil => exact Nat.le_refl 0
  | cons d ds ih =>
    rw [weight_cons]
    by_cases here : d.faces = faces
    · rw [countsOf_cons_of_eq ds here, unclampedSum_cons, if_pos here, Dice.magnitude]
      omega
    · rw [countsOf_cons_of_ne ds here, if_neg here]
      omega

theorem reversible_of_weight {faces : UInt32} {ds : List Dice} (fits : weight faces ds ≤ 2147483647) :
    Reversible (countsOf faces ds) where
  negatable c member := by
    obtain ⟨d, chosen, rfl⟩ := List.mem_map.mp member
    rcases List.mem_filter.mp chosen with ⟨among, same⟩
    have small := magnitude_le_weight among
    rw [of_decide_eq_true same] at small
    unfold Dice.magnitude at small
    rintro lowest
    rw [lowest, Int32.toInt_minValue] at small
    omega
  summed first last divided := by
    obtain ⟨chosen, chosen', both, rfl, rfl⟩ := List.map_eq_append_iff.mp divided.symm
    obtain ⟨ds₁, ds₂, rfl, rfl, rfl⟩ := List.filter_eq_append_iff.mp both
    have left := natAbs_unclampedSum_le_weight faces ds₁
    have right := natAbs_unclampedSum_le_weight faces ds₂
    rw [weight_append] at fits
    unfold countsOf at left right
    unfold Fits
    omega

namespace Expr

theorem contract_difference_self_eq {e : Expr} {p : Pool} (flat : toPool? e = some p) :
    contract (.binary .difference e e) = pool (p ++ p.negated).contract :=
  contract_eq_pool (toPool?_difference_eq_some_iff.mpr ⟨p, p, flat, flat, rfl⟩)

/-- An expression taken away from itself is contracted to nothing exactly if the counts of its flat form cancel for
each number of faces, which they do unless some count or some sum is clamped. -/
theorem contract_difference_self {e : Expr} (additive : isAdditive e = true) :
    ∃ p, toPool? e = some p ∧
      (contract (.binary .difference e e) = pool .empty ↔ ∀ faces, Cancels (countsOf faces p.entries)) ∧
      ((∀ faces, Reversible (countsOf faces p.entries)) →
        contract (.binary .difference e e) = pool .empty) := by
  obtain ⟨p, flat⟩ := exists_toPool? additive
  have exact_condition : contract (.binary .difference e e) = pool .empty ↔
      ∀ faces, Cancels (countsOf faces p.entries) := by
    rw [contract_difference_self_eq flat, Formula.leaf.injEq, Leaf.pool.injEq, Pool.contract_eq_empty_iff]
    apply forall_congr'
    intro faces
    rw [Pool.entries_append, Pool.entries_negated, countsOf_append, countsOf_map_negated, Cancels]
  exact ⟨p, flat, exact_condition, fun reversible =>
    exact_condition.mpr fun faces => (reversible faces).cancels⟩

theorem contract_difference_self_nested :
    let p : Pool := .ofList [.ofParts 2 6, .ofParts (-1) 8]
    let e : Expr := .binary .difference (.binary .sum (die 6) (num 3)) (pool p)
    isAdditive e = true ∧ contract (.binary .difference e e) = pool .empty := by
  intro p e
  have additive : isAdditive e = true := rfl
  obtain ⟨q, flat, -, enough⟩ := contract_difference_self additive
  cases flat
  refine ⟨additive, enough fun faces => reversible_of_weight ?_⟩
  change weight faces [.ofParts 1 6, .ofParts 3 1, .ofParts (-2) 6, .ofParts 1 8] ≤ 2147483647
  simp only [weight_cons, weight_nil]
  split <;> split <;> split <;> split <;> decide

theorem contract_difference_self_ne_empty :
    let lowest : Expr := num (-2147483648)
    let clamped : Expr := pool (.ofList [.ofParts 2147483647 6, .ofParts 1 6, .ofParts (-1) 6])
    ∀ e ∈ [lowest, clamped],
      isAdditive e = true ∧ contract (.binary .difference e e) ≠ pool .empty := by
  decide

end Expr
end DiceAlgebra
