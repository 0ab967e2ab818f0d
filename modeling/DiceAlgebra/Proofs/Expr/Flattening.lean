import DiceAlgebra.Proofs.Expr.FlatParts

/-! An additive expression and its flat form, throw for throw. The flat form has the same dice in the same order, so
it asks the roller for the same faces. Only the signs stand in another place: the expression turns totals around
after the throws, the flat form turns counts around before them. -/
namespace DiceAlgebra

/-- Turning the sign gives the opposite dice. The lowest count has no opposite; for other dice than constants it is
too many to be thrown. -/
def Dice.Negatable (d : Dice) : Prop :=
  d.isConstant = true → d.count ≠ Int32.minValue

instance (d : Dice) : Decidable d.Negatable :=
  inferInstanceAs (Decidable (_ → _))

theorem Dice.negatable_negated (d : Dice) : d.negated.Negatable := by
  intro _ lowest
  have clamped := toInt_saturate (-d.count.toInt)
  rw [← saturatingNeg, ← Dice.negated_count, lowest, Int32.toInt_minValue] at clamped
  have bounds := toInt_bounds d.count
  rw [Int32.toInt_minValue, Int32.toInt_maxValue] at bounds
  omega

theorem Dice.isNegative_negated {d : Dice} (nonzero : d.count ≠ 0) :
    d.negated.isNegative = !d.isNegative := by
  have clamped := toInt_saturate (-d.count.toInt)
  rw [← saturatingNeg, ← Dice.negated_count] at clamped
  have apart : d.count.toInt ≠ 0 := fun zero => nonzero (Int32.toInt_inj.mp (zero.trans Int32.toInt_zero.symm))
  rw [isNegative, isNegative, ← decide_not, decide_eq_decide, Int32.lt_iff_toInt_lt, Int32.lt_iff_toInt_lt,
    Int32.toInt_zero]
  omega

namespace Throw

def negated (t : Throw) : Throw :=
  { t with dice := t.dice.negated }

theorem exactTotal_negated {t : Throw} (nonzero : t.dice.count ≠ 0) (negatable : t.dice.Negatable) :
    t.negated.exactTotal = -t.exactTotal := by
  have kind : t.negated.dice.isConstant = t.dice.isConstant := rfl
  have sign : t.negated.dice.isNegative = !t.dice.isNegative := Dice.isNegative_negated nonzero
  have rolls : t.negated.rolls = t.rolls := rfl
  rw [exactTotal, exactTotal, kind, sign, rolls]
  split
  · next constant => exact toInt_saturatingNeg_of_ne (negatable constant)
  · cases t.dice.isNegative <;> simp

theorem exactSum_append (ts us : List Throw) : exactSum (ts ++ us) = exactSum ts + exactSum us :=
  foldr_add_append exactTotal ts us

theorem exactSum_map_negated {ts : List Throw} (nonzero : ∀ t ∈ ts, t.dice.count ≠ 0)
    (negatable : ∀ t ∈ ts, t.dice.Negatable) : exactSum (ts.map negated) = -exactSum ts := by
  induction ts with
  | nil => rfl
  | cons t ts ih =>
    rcases List.forall_mem_cons.mp nonzero with ⟨nonzero_t, nonzero_ts⟩
    rcases List.forall_mem_cons.mp negatable with ⟨negatable_t, negatable_ts⟩
    rw [List.map_cons, exactSum_cons, exactSum_cons, ih nonzero_ts negatable_ts,
      exactTotal_negated nonzero_t negatable_t]
    omega

theorem flatMap_rolls_map_negated (ts : List Throw) :
    (ts.map negated).flatMap rolls = ts.flatMap rolls := by
  rw [List.flatMap_map]
  rfl

end Throw

section Runs

variable {σ : Type} [Roller σ] {s u : σ}

theorem dice_of_run_roll {d : Dice} {t : Throw} (h : d.roll.run s = .ok t u) : t.dice = d := by
  unfold Dice.roll at h
  split at h
  · cases h
    rfl
  · split at h
    · cases h
    · obtain ⟨rolls, -, rfl⟩ := run_map_eq_ok.mp h
      rfl

theorem run_roll_negated {d : Dice} {t : Throw} (h : d.roll.run s = .ok t u) :
    d.negated.roll.run s = .ok t.negated u := by
  have kind : d.negated.isConstant = d.isConstant := rfl
  unfold Dice.roll at h ⊢
  rw [kind]
  split at h
  · next constant =>
    cases h
    rw [if_pos constant]
    rfl
  · next random =>
    split at h
    · cases h
    · next few =>
      have opposite : d.count ≠ Int32.minValue := by
        intro lowest
        rw [Dice.magnitude, lowest] at few
        exact few (by decide)
      have magnitude : d.negated.magnitude = d.magnitude := by
        rw [Dice.magnitude, Dice.negated_count, toInt_saturatingNeg_of_ne opposite, Int.natAbs_neg,
          Dice.magnitude]
      obtain ⟨rolls, rolled, rfl⟩ := run_map_eq_ok.mp h
      rw [if_neg random, magnitude, if_neg few]
      exact run_map_eq_ok.mpr ⟨rolls, rolled, rfl⟩

theorem run_mapM_roll {ds : List Dice} {ts : List Throw} (h : (ds.mapM Dice.roll).run s = .ok ts u) :
    ts.map Throw.dice = ds ∧
      ((ds.map Dice.negated).mapM Dice.roll).run s = .ok (ts.map Throw.negated) u := by
  induction ds generalizing s ts with
  | nil =>
    cases h
    exact ⟨rfl, rfl⟩
  | cons d ds ih =>
    rw [List.mapM_cons] at h
    obtain ⟨t, s', first, h⟩ := run_bind_eq_ok.mp h
    obtain ⟨rest, u', later, h⟩ := run_bind_eq_ok.mp h
    cases h
    obtain ⟨same, opposite⟩ := ih later
    rw [List.map_cons, List.map_cons, List.mapM_cons, dice_of_run_roll first, same]
    exact ⟨rfl, run_bind_eq_ok.mpr
      ⟨_, s', run_roll_negated first, run_bind_eq_ok.mpr ⟨_, u, opposite, rfl⟩⟩⟩

theorem Pool.run_roll_append {p q : Pool} {t : σ} {ts us : List Throw} (first : p.roll.run s = .ok ts t)
    (second : q.roll.run t = .ok us u) : (p ++ q).roll.run s = .ok (ts ++ us) u := by
  rw [Pool.roll, Pool.entries_append, List.mapM_append]
  exact run_bind_eq_ok.mpr ⟨ts, t, first, run_bind_eq_ok.mpr ⟨us, u, second, rfl⟩⟩

end Runs

namespace Expr

/-- The dice below the right sides of differences. -/
def subtracted : Expr → List Dice
  | .leaf _ => []
  | .unary _ x => subtracted x
  | .binary .difference a b => subtracted a ++ dice b
  | .binary _ a b => subtracted a ++ subtracted b

theorem subtracted_sublist (e : Expr) : (subtracted e).Sublist (dice e) := by
  induction e with
  | leaf l => exact List.nil_sublist _
  | unary op x ih => exact ih
  | binary op a b iha ihb =>
    rw [dice_binary]
    cases op with
    | difference => exact iha.append (List.Sublist.refl _)
    | sum | product | fraction | power | min | max => exact iha.append ihb

theorem negatable_toPool? {e : Expr} {p : Pool} (flat : toPool? e = some p)
    (negatable : ∀ d ∈ dice e, d.Negatable) : ∀ d ∈ p.entries, d.Negatable := by
  induction e generalizing p with
  | leaf l =>
    rw [dice_leaf] at negatable
    rw [Leaf.eq_ofList_dice flat, Pool.entries_ofList]
    exact fun d kept => negatable d (List.mem_filter.mp kept).1
  | unary op x ih => cases flat
  | binary op a b iha ihb =>
    rw [dice_binary] at negatable
    rcases List.forall_mem_append.mp negatable with ⟨negatable_a, negatable_b⟩
    cases op with
    | sum =>
      obtain ⟨q, r, left, right, rfl⟩ := toPool?_sum_eq_some_iff.mp flat
      exact List.forall_mem_append.mpr ⟨iha left negatable_a, ihb right negatable_b⟩
    | difference =>
      obtain ⟨q, r, left, right, rfl⟩ := toPool?_difference_eq_some_iff.mp flat
      refine List.forall_mem_append.mpr ⟨iha left negatable_a, ?_⟩
      rw [Pool.entries_negated, List.forall_mem_map]
      exact fun d _ => d.negatable_negated
    | product | fraction | power | min | max => cases flat

variable {refs : References} {σ : Type} [Roller σ] {s u : σ}

theorem exists_run_roll_leaf {l : Leaf} {p : Pool} (flat : l.toPool? = some p) {o : Outcome.Leaf}
    (h : (l.roll refs).run s = .ok o u) :
    ∃ ts, p.roll.run s = .ok ts u ∧ ts.flatMap Throw.rolls = o.rolls ∧ Throw.exactSum ts = o.exactValue := by
  cases l with
  | ref name => cases flat
  | die faces =>
    cases flat
    obtain ⟨t, rolled, rfl⟩ := run_map_eq_ok.mp h
    have alone : (Pool.single (.die faces)).entries = [.die faces] := by
      rw [Pool.entries_single, Dice.die_count]
      rfl
    refine ⟨[t], ?_, ?_, ?_⟩
    · rw [Pool.roll, alone, List.mapM_cons]
      exact run_bind_eq_ok.mpr ⟨t, u, run_adaptExcept_eq_ok.mp rolled, rfl⟩
    · rw [List.flatMap_singleton]
      rfl
    · rw [Throw.exactSum_cons, Throw.exactSum_nil, Int.add_zero]
      rfl
  | num value =>
    cases flat
    cases h
    have entries := Pool.entries_single (.constant value)
    rw [Dice.constant_count] at entries
    by_cases zero : value = 0
    · rw [if_pos zero] at entries
      refine ⟨[], ?_, rfl, ?_⟩
      · rw [Pool.roll, entries]
        rfl
      · rw [zero]
        rfl
    · rw [if_neg zero] at entries
      refine ⟨[⟨.constant value, []⟩], ?_, rfl, ?_⟩
      · rw [Pool.roll, entries]
        rfl
      · rw [Throw.exactSum_cons, Throw.exactSum_nil, Int.add_zero]
        rfl
  | pool q =>
    cases flat
    obtain ⟨ts, rolled, rfl⟩ := run_map_eq_ok.mp h
    exact ⟨ts, run_adaptExcept_eq_ok.mp rolled, rfl, rfl⟩

/-- What an additive expression throws, its flat form throws too. The signs come out alike where the opposite of
what is subtracted can be written down. -/
theorem exists_run_roll_toPool? {e : Expr} {p : Pool} (flat : toPool? e = some p) {o : Outcome}
    (h : (roll refs e).run s = .ok o u) :
    ∃ ts, p.roll.run s = .ok ts u ∧ ts.flatMap Throw.rolls = o.rolls ∧
      ((∀ d ∈ subtracted e, d.Negatable) → Throw.exactSum ts = o.exactValue) := by
  induction e generalizing p s u o with
  | leaf l =>
    obtain ⟨o', u', rolled, h⟩ := run_bind_eq_ok.mp h
    cases h
    obtain ⟨ts, run, rolls, sum⟩ := exists_run_roll_leaf flat rolled
    refine ⟨ts, run, ?_, fun _ => sum⟩
    rw [rolls, Outcome.rolls, Formula.leaves, List.flatMap_singleton]
  | unary op x ih => cases flat
  | binary op a b iha ihb =>
    obtain ⟨o₁, t, first, h⟩ := run_bind_eq_ok.mp h
    obtain ⟨o₂, u', second, h⟩ := run_bind_eq_ok.mp h
    cases h
    have rolls_binary : Outcome.rolls (.binary op o₁ o₂) = Outcome.rolls o₁ ++ Outcome.rolls o₂ := by
      rw [Outcome.rolls, Formula.leaves, List.flatMap_append, Outcome.rolls, Outcome.rolls]
    rw [rolls_binary]
    cases op with
    | sum =>
      obtain ⟨q, r, left, right, rfl⟩ := toPool?_sum_eq_some_iff.mp flat
      obtain ⟨ts₁, run₁, rolls₁, sum₁⟩ := iha left first
      obtain ⟨ts₂, run₂, rolls₂, sum₂⟩ := ihb right second
      refine ⟨ts₁ ++ ts₂, Pool.run_roll_append run₁ run₂, ?_, fun negatable => ?_⟩
      · rw [List.flatMap_append, rolls₁, rolls₂]
      · rcases List.forall_mem_append.mp negatable with ⟨negatable_a, negatable_b⟩
        rw [Throw.exactSum_append, sum₁ negatable_a, sum₂ negatable_b]
        rfl
    | difference =>
      obtain ⟨q, r, left, right, rfl⟩ := toPool?_difference_eq_some_iff.mp flat
      obtain ⟨ts₁, run₁, rolls₁, sum₁⟩ := iha left first
      obtain ⟨ts₂, run₂, rolls₂, sum₂⟩ := ihb right second
      obtain ⟨dice₂, opposite⟩ := run_mapM_roll run₂
      refine ⟨ts₁ ++ ts₂.map Throw.negated, Pool.run_roll_append run₁ opposite, ?_, fun negatable => ?_⟩
      · rw [List.flatMap_append, Throw.flatMap_rolls_map_negated, rolls₁, rolls₂]
      · rcases List.forall_mem_append.mp negatable with ⟨negatable_a, negatable_b⟩
        have entries : ∀ t ∈ ts₂, t.dice ∈ r.entries := fun t member =>
          dice₂ ▸ List.mem_map_of_mem member
        have turned : Throw.exactSum (ts₂.map Throw.negated) = -Throw.exactSum ts₂ :=
          Throw.exactSum_map_negated (fun t member => r.count_ne_zero _ (entries t member))
            (fun t member => negatable_toPool? right negatable_b _ (entries t member))
        have below : ∀ d ∈ subtracted b, d.Negatable := fun d member =>
          negatable_b d ((subtracted_sublist b).subset member)
        rw [Throw.exactSum_append, turned, sum₁ negatable_a, sum₂ below, ← Int.sub_eq_add_neg]
        rfl
    | product | fraction | power | min | max => cases flat

/-- Exactly the additive expressions have a flat form. Where both can be evaluated, they draw the same values in the
same order and leave the roller in the same state, and unless the lowest constant is subtracted somewhere, they
come to the same total. -/
theorem flat_form_evaluates_alike {e : Expr} :
    ((toPool? e).isSome = true ↔ isAdditive e = true) ∧
      ∀ {p : Pool} {s t t' : σ} {v w : Int32}, toPool? e = some p →
        (evaluate refs e).run s = .ok v t → (evaluate refs (pool p)).run s = .ok w t' →
          (∃ o o' : Outcome, (roll refs e).run s = .ok o t ∧ (roll refs (pool p)).run s = .ok o' t' ∧
            o.rolls = o'.rolls) ∧
          t = t' ∧ ((∀ d ∈ subtracted e, d.Negatable) → v = w) := by
  refine ⟨by rw [isSome_toPool?], ?_⟩
  intro p s t t' v w flat value value'
  obtain ⟨o, rolled, total⟩ := run_evaluate_eq_ok.mp value
  obtain ⟨o', rolled', total'⟩ := run_evaluate_eq_ok.mp value'
  obtain ⟨ts, run, rolls, sum⟩ := exists_run_roll_toPool? flat rolled
  have thrown : (roll refs (pool p)).run s = .ok (.pool ts) t :=
    run_bind_eq_ok.mpr ⟨.pool ts, t, run_map_eq_ok.mpr ⟨ts, run_adaptExcept_eq_ok.mpr run, rfl⟩, rfl⟩
  rw [thrown] at rolled'
  cases rolled'
  refine ⟨⟨o, .pool ts, rolled, thrown, ?_⟩, rfl, fun negatable => ?_⟩
  · rw [← rolls, Outcome.rolls, Formula.leaves, List.flatMap_singleton, Outcome.Leaf.rolls]
  · have value_exact := (Outcome.inRange_of_value total).2
    have value_exact' := (Outcome.inRange_of_value total').2
    rw [← Int32.toInt_inj, value_exact, value_exact', ← sum negatable]
    rfl

theorem flat_form_evaluates_alike_script :
    let x : Expr := .binary .sum (num 0) (pool (.ofList [.ofParts (-1) 4]))
    let e : Expr := .binary .difference (pool (.ofList [.ofParts 2 6, .constant 3]))
      (.binary .difference (die 8) x)
    let p : Pool := .ofList [.ofParts 2 6, .constant 3, .ofParts (-1) 8, .ofParts (-1) 4]
    let start := Source.script [2, 5, 7, 1, 9]
    toPool? e = some p ∧ (∀ d ∈ subtracted e, d.Negatable) ∧
      (evaluate References.none e).run start = .ok 2 (.script [9]) ∧
      (evaluate References.none (pool p)).run start = .ok 2 (.script [9]) ∧
      (∃ o o' : Outcome, (roll References.none e).run start = .ok o (.script [9]) ∧
        (roll References.none (pool p)).run start = .ok o' (.script [9]) ∧ o.rolls = o'.rolls) ∧
      (2 : Int32) = 2 := by
  intro x e p start
  have flat : toPool? e = some p := by decide
  have negatable : ∀ d ∈ subtracted e, d.Negatable := by decide
  have value : (evaluate References.none e).run start = .ok 2 (.script [9]) := rfl
  have value' : (evaluate References.none (pool p)).run start = .ok 2 (.script [9]) := rfl
  obtain ⟨draws, -, totals⟩ := flat_form_evaluates_alike.2 flat value value'
  exact ⟨flat, negatable, value, value', draws, totals negatable⟩

end Expr
end DiceAlgebra
