import DiceAlgebra.Proofs.Expr.Refusal
import DiceAlgebra.Proofs.Expr.RollCount

/-! What is left to chance. An expression without dice of two faces or more comes out the same with every roller and
leaves the roller alone; in any other one each throw asks for a die at least, because pools keep no zero counts. -/
namespace DiceAlgebra

variable {ε ε' α β : Type}

/-- The step has one result for all rollers, and leaves them as they are. -/
def Idle (step : (σ : Type) → [Roller σ] → EStateM ε σ α) : Prop :=
  ∃ result : Except ε α, ∀ (σ : Type) [Roller σ] (s : σ), (step σ).run s = match result with
    | .ok a => .ok a s
    | .error e => .error e s

theorem idle_pure (a : α) : Idle (fun σ _ => (pure a : EStateM ε σ α)) :=
  ⟨.ok a, fun _ _ _ => rfl⟩

theorem idle_throw (e : ε) : Idle (fun σ _ => (throw e : EStateM ε σ α)) :=
  ⟨.error e, fun _ _ _ => rfl⟩

namespace Idle

variable {step : (σ : Type) → [Roller σ] → EStateM ε σ α}

theorem bind {next : α → (σ : Type) → [Roller σ] → EStateM ε σ β} (h : Idle step) (h' : ∀ a, Idle (next a)) :
    Idle (fun σ _ => step σ >>= fun a => next a σ) := by
  obtain ⟨result, run⟩ := h
  cases result with
  | error e =>
    refine ⟨.error e, fun σ _ s => ?_⟩
    rw [EStateM.run_bind, run]
  | ok a =>
    obtain ⟨result, run'⟩ := h' a
    refine ⟨result, fun σ _ s => ?_⟩
    rw [EStateM.run_bind, run]
    exact run' σ s

theorem map (h : Idle step) (f : α → β) : Idle (fun σ _ => f <$> step σ) := by
  simp only [map_eq_pure_bind]
  exact h.bind fun a => idle_pure (f a)

theorem adaptExcept (h : Idle step) (f : ε → ε') : Idle (fun σ _ => (step σ).adaptExcept f) := by
  obtain ⟨result, run⟩ := h
  refine ⟨result.mapError f, fun σ _ s => ?_⟩
  rw [EStateM.run_adaptExcept, run]
  cases result <;> rfl

end Idle

theorem idle_mapM_list {f : α → (σ : Type) → [Roller σ] → EStateM ε σ β} {as : List α}
    (each : ∀ a ∈ as, Idle (f a)) : Idle (fun σ _ => as.mapM fun a => f a σ) := by
  induction as with
  | nil =>
    simp only [List.mapM_nil]
    exact idle_pure []
  | cons a as ih =>
    simp only [List.mapM_cons]
    rw [List.forall_mem_cons] at each
    exact each.1.bind fun b => (ih each.2).map (b :: ·)

theorem idle_mapM_formula {f : α → (σ : Type) → [Roller σ] → EStateM ε σ β} {x : Formula α}
    (each : ∀ a ∈ x.leaves, Idle (f a)) : Idle (fun σ _ => x.mapM fun a => f a σ) := by
  induction x with
  | leaf a => exact (each a (List.mem_singleton_self a)).map Formula.leaf
  | unary op x ih => exact (ih each).map (Formula.unary op)
  | binary op a b iha ihb =>
    rw [Formula.leaves, List.forall_mem_append] at each
    exact (iha each.1).bind fun c => (ihb each.2).map (Formula.binary op c)

theorem idle_roll_dice {d : Dice} (constant : d.isConstant = true) : Idle (fun σ _ => d.roll (σ := σ)) := by
  unfold Dice.roll
  simp only [if_pos constant]
  exact idle_pure _

namespace Expr

theorem idle_roll_leaf (refs : References) {l : Leaf} (determined : l.isDeterministic = true) :
    Idle (fun σ _ => l.roll (σ := σ) refs) := by
  cases l with
  | die faces =>
    have constant : (Dice.die faces).isConstant = true := (isConstant_die faces).mpr (of_decide_eq_true determined)
    exact ((idle_roll_dice constant).adaptExcept _).map _
  | num value => exact idle_pure _
  | ref name =>
    cases known : refs name with
    | none =>
      simp only [Leaf.roll, known]
      exact idle_throw _
    | some value =>
      simp only [Leaf.roll, known]
      exact idle_pure _
  | pool p =>
    have constants : ∀ d ∈ p.entries, d.isConstant = true := List.all_eq_true.mp determined
    exact ((idle_mapM_list fun d among => idle_roll_dice (constants d among)).adaptExcept _).map _

theorem idle_roll (refs : References) {e : Expr} (determined : isDeterministic e = true) :
    Idle (fun σ _ => roll (σ := σ) refs e) :=
  idle_mapM_formula fun l member => idle_roll_leaf refs (List.all_eq_true.mp determined l member)

end Expr

theorem length_flatMap_eq_foldr {f : α → List β} {count : α → Nat} (each : ∀ a, (f a).length = count a)
    (as : List α) : (as.flatMap f).length = as.foldr (fun a n => count a + n) 0 := by
  simp only [List.length_flatMap, each, List.sum_eq_foldr, List.foldr_map]

theorem Dice.length_toThrow (d : Dice) : d.toThrow.length = d.rollCount := by
  unfold toThrow rollCount
  split
  · rfl
  · exact List.length_replicate

namespace Expr

theorem length_toThrow (e : Expr) : e.toThrow.length = rollCount e := by
  refine length_flatMap_eq_foldr (fun l => ?_) e.leaves
  cases l with
  | die faces => exact (Dice.length_toThrow _).trans (rollCount_die faces)
  | num value | ref name => rfl
  | pool p => exact length_flatMap_eq_foldr Dice.length_toThrow p.entries

theorem Leaf.Accepted.throwable {refs : References} {l : Leaf} (accepted : l.Accepted refs) : l.Throwable := by
  cases l with
  | ref name => exact trivial
  | die faces | num value | pool p => exact accepted

theorem shows_and_thrown_of_run {σ : Type} [Roller σ] {refs : References} {e : Expr} {s t : σ} {o : Outcome}
    (h : (roll refs e).run s = .ok o t) :
    Roller.Shows e.toThrow o.rolls s t ∧ Formula.Forall₂ (Leaf.ThrownAs refs) e o := by
  -- the outcome is the same from a script of what the roller has shown, and there the record is known
  obtain ⟨shown, shows, read⟩ := (asks_roll refs e σ s t o).mp h
  have accepted : ∀ l ∈ e.leaves, l.Accepted refs := ((exists_run_roll_iff e s t).mp ⟨o, h⟩).1
  have each : ∀ l ∈ e.leaves, Source.Draws (l.roll refs) l.rollCount fun drawn thrown =>
      thrown.rolls = drawn ∧ l.ThrownAs refs thrown := by
    intro l member
    refine draws_roll_leaf ?_ (accepted l member).throwable
    rintro name rfl
    exact accepted _ member
  have taken : shown.length = rollCount e := by rw [shows.length_eq, length_toThrow]
  obtain ⟨o', run, recorded, thrown⟩ := Source.draws_mapM_formula each shown [] taken
  rw [List.append_nil] at run
  cases read.symm.trans run
  change o.rolls = shown at recorded
  exact ⟨recorded ▸ shows, thrown⟩

theorem shows_rolls_of_run {σ : Type} [Roller σ] {refs : References} {e : Expr} {s t : σ} {o : Outcome}
    (h : (roll refs e).run s = .ok o t) : Roller.Shows e.toThrow o.rolls s t :=
  (shows_and_thrown_of_run h).1

/-- An expression for which nothing is left to chance has one outcome for all rollers, or one reason to have none,
and does not touch the roller. Any other one throws a die each time it is thrown, and keeps it on record. -/
theorem roll_idle_or_draws (e : Expr) :
    (isDeterministic e = true → ∀ refs, Idle (fun σ _ => roll (σ := σ) refs e)) ∧
    (isDeterministic e = false → ∀ (refs : References) (σ : Type) [Roller σ] (s t : σ) (o : Outcome),
      (roll refs e).run s = .ok o t → o.rolls ≠ [] ∧ Roller.Shows e.toThrow o.rolls s t) := by
  refine ⟨fun determined refs => idle_roll refs determined, ?_⟩
  intro random refs σ _ s t o h
  have shows : Roller.Shows e.toThrow o.rolls s t := shows_rolls_of_run h
  refine ⟨fun none => ?_, shows⟩
  have nothing : rollCount e = 0 := by
    rw [← length_toThrow, ← shows.length_eq, none, List.length_nil]
  rw [(isDeterministic_iff e).mpr nothing] at random
  cases random

theorem roll_idle_or_draws_pool :
    let fixed : Expr := .binary .sum (.unary .rolled (die 1)) (.binary .product (die 0) (ref "STR"))
    let random : Expr := .binary .max (num 3) (pool (.ofList [.constant 200000, .ofParts (-2) 6]))
    isDeterministic fixed = true ∧ (∀ refs, Idle (fun σ _ => roll (σ := σ) refs fixed)) ∧
      isDeterministic random = false ∧
      ∃ o : Outcome, (roll References.none random).run (Source.script [5, 2, 4]) = .ok o (.script [4]) ∧
        o.rolls ≠ [] ∧ Roller.Shows [6, 6] o.rolls (Source.script [5, 2, 4]) (.script [4]) := by
  intro fixed random
  have determined : isDeterministic fixed = true := by decide
  have undetermined : isDeterministic random = false := by decide
  refine ⟨determined, (roll_idle_or_draws fixed).1 determined, undetermined, _, rfl, ?_⟩
  exact (roll_idle_or_draws random).2 undetermined References.none Source _ _ _ rfl

end Expr
end DiceAlgebra
