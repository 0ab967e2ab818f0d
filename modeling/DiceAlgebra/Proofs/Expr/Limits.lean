import DiceAlgebra.Proofs.Expr.FlatParts

/-! Whether a contracted expression still has a total. Merging makes throws larger and puts them in another
order, so a flat sum may leave the limits of evaluation by being contracted. As long as no count is clamped,
nothing else can go wrong: what is left of the expression sees the totals it saw before. -/
namespace DiceAlgebra

/-- If every die shows its face, the rolls add up to a 32-bit number. Constants are not rolled. -/
def Dice.RollsFit (face : UInt32 → UInt32) (d : Dice) : Prop :=
  d.isConstant = true ∨ d.magnitude * (face d.faces).toNat ≤ 2147483647

instance (face : UInt32 → UInt32) (d : Dice) : Decidable (d.RollsFit face) :=
  inferInstanceAs (Decidable (_ ∨ _))

/-- What evaluation asks of a flat sum. No entry has too many dice or too much on them, and the totals of the
entries stay in range on the way from the left. -/
structure Pool.WithinLimits (face : UInt32 → UInt32) (p : Pool) : Prop where
  throwable : ∀ d ∈ p.entries, d.Throwable
  rolled : ∀ d ∈ p.entries, d.RollsFit face
  summed : ∀ first, first <+: p.entries → Fits (tally (Expr.faceValue face) first)

namespace Expr

variable {face : UInt32 → UInt32} {refs : References}

def WithinLimits (face : UInt32 → UInt32) (e : Expr) : Prop :=
  ∀ p, .pool p ∈ e.leaves → p.WithinLimits face

theorem inRange_shown_iff {d : Dice} : (d.shown face).InRange ↔ d.RollsFit face := by
  unfold Throw.InRange Dice.shown Dice.RollsFit
  by_cases constant : d.isConstant = true
  · simp only [constant, true_or]
  · simp only [constant, Bool.false_eq_true, ↓reduceIte, false_or, sumRolls_replicate]
    omega

theorem shownValue_pool_iff {p : Pool} {v : Int32} :
    shownValue face refs (pool p) = some v ↔ (∀ d ∈ p.entries, d.RollsFit face) ∧
      (∀ first, first <+: p.entries → Fits (tally (faceValue face) first)) ∧
      v.toInt = tally (faceValue face) p.entries := by
  rw [shownValue_leaf]
  simp only [Leaf.shown, Option.some.injEq, exists_eq_left', Outcome.Leaf.value_eq_ok_iff_inRange,
    Outcome.Leaf.InRange, Outcome.Leaf.exactValue, exactSum_map_shown, List.forall_mem_map,
    inRange_shown_iff, and_assoc, List.prefix_map_iff, forall_exists_index, and_imp]
  apply and_congr_right'
  apply and_congr_left'
  constructor
  · intro summed first before
    rw [← exactSum_map_shown]
    exact summed _ first before rfl
  · rintro summed _ first before rfl
    rw [exactSum_map_shown]
    exact summed first before

theorem withinLimits_iff {p : Pool} : p.WithinLimits face ↔
    (∀ d ∈ p.entries, d.Throwable) ∧ ∃ v, shownValue face refs (pool p) = some v := by
  simp only [shownValue_pool_iff]
  constructor
  · rintro ⟨throwable, rolled, summed⟩
    obtain ⟨v, total⟩ := exists_toInt_eq (summed p.entries List.prefix_rfl)
    exact ⟨throwable, v, rolled, summed, total⟩
  · rintro ⟨throwable, v, rolled, summed, -⟩
    exact ⟨throwable, rolled, summed⟩

/-- Contraction leaves an expression with a total exactly as long as its flat sums stay within the limits. This
takes exact counts once other operations see the totals. The roller shows what it likes on every number of
faces, but always the same. -/
theorem evaluate_contract_iff {σ : Type} [Roller σ] {ready : σ → Prop}
    (unfailing : Roller.Unfailing face ready) {e : Expr}
    (exact : ¬ isAdditive e = true → ∀ x ∈ flatParts e, x.ContractsExactly) {s s' t : σ} {v : Int32}
    (start : ready s) (start' : ready s') (value : (evaluate refs e).run s = .ok v t) :
    (∃ w t', (evaluate refs (contract e)).run s' = .ok w t') ↔ WithinLimits face (contract e) := by
  simp only [exists_evaluate_iff unfailing start']
  constructor
  · rintro ⟨w, throwable, contracted⟩ p member
    exact withinLimits_iff.mpr ⟨throwable _ member, exists_shownValue_leaf contracted _ member⟩
  · intro limits
    have throwable : ∀ l ∈ (contract e).leaves, l.Throwable := by
      intro l member
      cases l with
      | pool p => exact (limits p member).throwable
      | die faces | num value | ref name => trivial
    have totals : PoolsTotal face refs (contract e) := fun p member =>
      (withinLimits_iff.mp (limits p member)).2
    by_cases additive : isAdditive e = true
    · obtain ⟨w, contracted⟩ := exists_shownValue_contract additive totals
      exact ⟨w, throwable, contracted⟩
    · have shown := shownValue_of_evaluate unfailing.steady start value
      exact ⟨v, throwable, shownValue_contract_of_totals (exact additive) totals shown⟩

theorem evaluate_contract_iff_merged :
    let p : Pool := .ofList [.ofParts 3 6, .constant 2]
    let e : Expr :=
      .binary .max (.binary .difference (.binary .sum (pool p) (die 8)) (die 6)) (ref "STR")
    let refs : References := fun _ => some 2
    (¬ isAdditive e = true → ∀ x ∈ flatParts e, x.ContractsExactly) ∧
      (evaluate refs e).run Source.highest = .ok 22 Source.highest ∧
      ((∃ w t', (evaluate refs (contract e)).run Source.highest = .ok w t') ↔
        WithinLimits id (contract e)) := by
  intro p e refs
  have exact : ¬ isAdditive e = true → ∀ x ∈ flatParts e, x.ContractsExactly := by
    intro _ x member
    rw [show flatParts e = [.binary .difference (.binary .sum (pool p) (die 8)) (die 6)] from rfl,
      List.mem_singleton] at member
    subst member
    intro faces
    change tally (indicator faces) [⟨1, 8, by decide⟩, ⟨2, 6, by decide⟩, ⟨2, 1, by decide⟩] =
      tally (indicator faces) [⟨3, 6, by decide⟩, ⟨2, 1, by decide⟩] +
        tally (indicator faces) [⟨1, 8, by decide⟩] - tally (indicator faces) [⟨1, 6, by decide⟩]
    simp only [tally_cons, tally_nil, Int32.reduceToInt]
    omega
  have value : (evaluate refs e).run Source.highest = .ok 22 Source.highest := rfl
  exact ⟨exact, value, evaluate_contract_iff Source.unfailing_highest exact rfl rfl value⟩

/-- More dice than may be thrown at once, an entry that overflows, a sum that overflows in another order, and a
clamped count that leaves zero for a divisor. -/
theorem not_evaluate_contract :
    let crowd : Expr := pool (.ofList [.ofParts 100000 6, .ofParts 1 6])
    let entry : Expr :=
      pool (.ofList [.ofParts 1 2147483647, .constant (-2147483647), .ofParts 1 2147483647])
    let order : Expr := pool (.ofList [.constant (-100), .ofParts 1 2147483647, .ofParts 1 6])
    let divisor : Expr := .binary .fraction (num 1)
      (pool (.ofList [.constant 2147483647, .ofParts (-1) 2147483647, .constant 2147483647]))
    let refs : References := fun _ => none
    ∀ e ∈ [crowd, entry, order, divisor],
      (∃ v t, (evaluate refs e).run Source.highest = .ok v t) ∧
        ¬ ∃ w t, (evaluate refs (contract e)).run Source.highest = .ok w t := by
  intro crowd entry order divisor refs
  simp only [List.forall_mem_cons, List.not_mem_nil, false_imp_iff, implies_true, and_true]
  refine ⟨⟨⟨600006, ?_⟩, nofun⟩, ⟨⟨2147483647, _, rfl⟩, nofun⟩, ⟨⟨2147483553, _, rfl⟩, nofun⟩,
    ⟨⟨0, _, rfl⟩, nofun⟩⟩
  -- too many throws to run them one by one
  rw [exists_evaluate_iff Source.unfailing_highest rfl, shownValue_pool_iff]
  refine ⟨List.forall_mem_singleton.mpr ?_, ?_, ?_, rfl⟩
  · change ∀ d ∈ [Dice.ofParts 100000 6, Dice.ofParts 1 6], d.Throwable
    decide
  · change ∀ d ∈ [Dice.ofParts 100000 6, Dice.ofParts 1 6], _
    decide
  · change ∀ first, first <+: [Dice.ofParts 100000 6, Dice.ofParts 1 6] → _
    simp only [List.prefix_cons_iff, List.prefix_nil]
    rintro first (rfl | ⟨_, rfl, rfl | ⟨_, rfl, rfl⟩⟩) <;> decide

end Expr
end DiceAlgebra
