import DiceAlgebra.Expr.Eval
import Mathlib.Data.List.Forall2

/-! Runs that succeed, taken apart into the runs of their steps. -/
namespace DiceAlgebra

variable {ε ε' σ α β : Type}

theorem run_bind_eq_ok {x : EStateM ε σ α} {f : α → EStateM ε σ β} {s t : σ} {b : β} :
    (x >>= f).run s = .ok b t ↔ ∃ a u, x.run s = .ok a u ∧ (f a).run u = .ok b t := by
  rw [EStateM.run_bind]
  cases x.run s with
  | error e u => simp
  | ok a u => simp [and_assoc]

theorem run_map_eq_ok {f : α → β} {x : EStateM ε σ α} {s t : σ} {b : β} :
    (f <$> x).run s = .ok b t ↔ ∃ a, x.run s = .ok a t ∧ f a = b := by
  rw [map_eq_pure_bind, run_bind_eq_ok]
  simp

theorem run_adaptExcept_eq_ok {f : ε → ε'} {x : EStateM ε σ α} {s t : σ} {a : α} :
    (x.adaptExcept f).run s = .ok a t ↔ x.run s = .ok a t := by
  rw [EStateM.run_adaptExcept]
  cases x.run s <;> simp

theorem exists_run_eq_error_iff {x : EStateM ε σ α} {s : σ} :
    (∃ e t, x.run s = .error e t) ↔ ¬ ∃ a t, x.run s = .ok a t := by
  cases x.run s <;> simp

/-- Evaluation throws everything first and calculates afterwards. -/
theorem Expr.run_evaluate_eq_ok [Roller σ] {refs : References} {e : Expr} {v : Int32} {s t : σ} :
    (evaluate refs e).run s = .ok v t ↔
      ∃ o : Outcome, (roll refs e).run s = .ok o t ∧ o.value = .ok v := by
  rw [evaluate, run_bind_eq_ok]
  simp only [run_adaptExcept_eq_ok]
  constructor
  · rintro ⟨o, u, rolled, calculated⟩
    cases value : o.value with
    | error fault =>
      simp only [value] at calculated
      cases calculated
    | ok w =>
      simp only [value] at calculated
      cases calculated
      exact ⟨o, rolled, value⟩
  · rintro ⟨o, rolled, value⟩
    refine ⟨o, t, rolled, ?_⟩
    simp only [value]
    rfl

theorem forall₂_of_run_mapM {f : α → EStateM ε σ β} {R : α → β → Prop} {ready : σ → Prop} {as : List α}
    (each : ∀ a ∈ as, ∀ s t b, ready s → (f a).run s = .ok b t → R a b ∧ ready t) {bs : List β} {s t : σ}
    (start : ready s) (h : (as.mapM f).run s = .ok bs t) : List.Forall₂ R as bs ∧ ready t := by
  induction as generalizing s bs with
  | nil =>
    rw [List.mapM_nil, EStateM.run_pure] at h
    cases h
    exact ⟨.nil, start⟩
  | cons a as ih =>
    rw [List.mapM_cons] at h
    rcases run_bind_eq_ok.mp h with ⟨b, u, first, h⟩
    rcases run_bind_eq_ok.mp h with ⟨rest, v, later, h⟩
    cases h
    rw [List.forall_mem_cons] at each
    rcases each.1 s u b start first with ⟨related, between⟩
    rcases ih each.2 between later with ⟨all, finish⟩
    exact ⟨.cons related all, finish⟩

theorem run_mapM_list {f : α → EStateM ε σ β} {g : α → β} {P : α → Prop} {ready : σ → Prop}
    (each : ∀ a s t b, ready s → (f a).run s = .ok b t → P a ∧ b = g a ∧ ready t) {as : List α}
    {bs : List β} {s t : σ} (start : ready s) (h : (as.mapM f).run s = .ok bs t) :
    (∀ a ∈ as, P a) ∧ bs = as.map g ∧ ready t := by
  have related : ∀ a ∈ as, ∀ s t b, ready s → (f a).run s = .ok b t → (P a ∧ b = g a) ∧ ready t :=
    fun a _ s t b start run => and_assoc.mpr (each a s t b start run)
  obtain ⟨all, finish⟩ := forall₂_of_run_mapM related start h
  obtain ⟨holds, same⟩ := (List.forall₂_and_left as bs).mp all
  refine ⟨holds, ?_, finish⟩
  rw [← List.forall₂_eq_eq_eq, List.forall₂_map_right_iff]
  exact same.flip

theorem run_mapM_formula {f : α → EStateM ε σ β} {g : α → Option β} {P : α → Prop} {ready : σ → Prop}
    (each : ∀ a s t b, ready s → (f a).run s = .ok b t → P a ∧ g a = some b ∧ ready t)
    {x : Formula α} {y : Formula β} {s t : σ} (start : ready s) (h : (x.mapM f).run s = .ok y t) :
    (∀ a ∈ x.leaves, P a) ∧ x.mapM g = some y ∧ ready t := by
  induction x generalizing s t y with
  | leaf a =>
    rcases run_bind_eq_ok.mp h with ⟨b, u, first, h⟩
    cases h
    rcases each a s t b start first with ⟨holds, found, finish⟩
    simp [Formula.mapM, Formula.leaves, holds, found, finish]
  | unary op x ih =>
    rcases run_bind_eq_ok.mp h with ⟨x', u, first, h⟩
    cases h
    rcases ih start first with ⟨all, found, finish⟩
    exact ⟨all, by simp [Formula.mapM, found], finish⟩
  | binary op a b iha ihb =>
    rcases run_bind_eq_ok.mp h with ⟨a', u, first, h⟩
    rcases run_bind_eq_ok.mp h with ⟨b', v, second, h⟩
    cases h
    rcases iha start first with ⟨all_a, found_a, between⟩
    rcases ihb between second with ⟨all_b, found_b, finish⟩
    exact ⟨List.forall_mem_append.mpr ⟨all_a, all_b⟩, by simp [Formula.mapM, found_a, found_b], finish⟩

theorem exists_run_mapM_list {f : α → EStateM ε σ β} {g : α → β} {ready : σ → Prop} {as : List α}
    (each : ∀ a ∈ as, ∀ s, ready s → ∃ t, (f a).run s = .ok (g a) t ∧ ready t) {s : σ}
    (start : ready s) : ∃ t, (as.mapM f).run s = .ok (as.map g) t ∧ ready t := by
  induction as generalizing s with
  | nil => exact ⟨s, rfl, start⟩
  | cons a as ih =>
    obtain ⟨u, first, between⟩ := each a (List.mem_cons_self ..) s start
    obtain ⟨t, later, finish⟩ := ih (fun b among => each b (List.mem_cons_of_mem a among)) between
    refine ⟨t, ?_, finish⟩
    rw [List.mapM_cons]
    exact run_bind_eq_ok.mpr ⟨_, u, first, run_bind_eq_ok.mpr ⟨_, t, later, rfl⟩⟩

theorem exists_run_mapM_formula {f : α → EStateM ε σ β} {g : α → Option β} {ready : σ → Prop}
    {x : Formula α} {y : Formula β}
    (each : ∀ a ∈ x.leaves, ∀ b, g a = some b → ∀ s, ready s → ∃ t, (f a).run s = .ok b t ∧ ready t)
    (found : x.mapM g = some y) {s : σ} (start : ready s) :
    ∃ t, (x.mapM f).run s = .ok y t ∧ ready t := by
  induction x generalizing s y with
  | leaf a =>
    rcases Option.bind_eq_some_iff.mp found with ⟨b, found_a, made⟩
    cases made
    obtain ⟨t, run, finish⟩ := each a (List.mem_singleton_self a) b found_a s start
    exact ⟨t, run_bind_eq_ok.mpr ⟨_, t, run, rfl⟩, finish⟩
  | unary op x ih =>
    rcases Option.bind_eq_some_iff.mp found with ⟨x', found_x, made⟩
    cases made
    obtain ⟨t, run, finish⟩ := ih each found_x start
    exact ⟨t, run_bind_eq_ok.mpr ⟨_, t, run, rfl⟩, finish⟩
  | binary op a b iha ihb =>
    rcases Option.bind_eq_some_iff.mp found with ⟨a', found_a, rest⟩
    rcases Option.bind_eq_some_iff.mp rest with ⟨b', found_b, made⟩
    cases made
    obtain ⟨u, first, between⟩ := iha (fun l left => each l (List.mem_append_left _ left)) found_a start
    obtain ⟨t, second, finish⟩ := ihb (fun l right => each l (List.mem_append_right _ right)) found_b between
    exact ⟨t, run_bind_eq_ok.mpr ⟨_, u, first, run_bind_eq_ok.mpr ⟨_, t, second, rfl⟩⟩, finish⟩

/-- Not refused for its number of dice. -/
def Dice.Throwable (d : Dice) : Prop :=
  d.isConstant = true ∨ d.magnitude ≤ maxRolls

instance (d : Dice) : Decidable d.Throwable :=
  inferInstanceAs (Decidable (_ ∨ _))

theorem throwable_die (faces : UInt32) : (Dice.die faces).Throwable := by
  right
  rw [Dice.magnitude, Dice.die_count]
  decide

/-- Only the entries of a pool can ask for too many dice. -/
def Expr.Leaf.Throwable : Expr.Leaf → Prop
  | .pool p => ∀ d ∈ p.entries, d.Throwable
  | _ => True

end DiceAlgebra
