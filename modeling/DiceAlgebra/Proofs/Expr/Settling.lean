import DiceAlgebra.Proofs.Expr.ShownValue

/-! Settling the parts marked as rolled ahead of the rest. Calculation takes the total of every operand and nothing
else from it, whatever the operation, so a part may be replaced by its total; and a part without a total leaves the
whole without one, whether it is found out early or late. -/
namespace DiceAlgebra

namespace Expr

variable {face : UInt32 → UInt32} {refs : References}

/-- What evaluation asks for: no leaf has too many dice to throw, and the faces shown come to this total. -/
def ComesTo (face : UInt32 → UInt32) (refs : References) (e : Expr) (v : Int32) : Prop :=
  (∀ l ∈ e.leaves, l.Throwable) ∧ shownValue face refs e = some v

theorem ComesTo.unique {e : Expr} {v w : Int32} (h : ComesTo face refs e v) (h' : ComesTo face refs e w) :
    v = w :=
  Option.some.inj (h.2.symm.trans h'.2)

theorem comesTo_num {v w : Int32} : ComesTo face refs (num w) v ↔ w = v := by
  constructor
  · intro total
    obtain ⟨o, shown, value⟩ := shownValue_leaf.mp total.2
    cases shown
    exact Except.ok.inj value
  · rintro rfl
    exact ⟨List.forall_mem_singleton.mpr trivial, shownValue_leaf.mpr ⟨_, rfl, rfl⟩⟩

theorem comesTo_unary {op : UnaryOp} {x : Expr} {v : Int32} :
    ComesTo face refs (.unary op x) v ↔ ∃ w, ComesTo face refs x w ∧ op.apply w = .ok v := by
  simp only [ComesTo, shownValue_unary, Formula.leaves, and_assoc, exists_and_left]

theorem comesTo_binary {op : BinaryOp} {a b : Expr} {v : Int32} :
    ComesTo face refs (.binary op a b) v ↔
      ∃ w₁ w₂, ComesTo face refs a w₁ ∧ ComesTo face refs b w₂ ∧ op.apply w₁ w₂ = .ok v := by
  simp only [ComesTo, shownValue_binary, Formula.leaves, List.forall_mem_append]
  constructor
  · rintro ⟨⟨throwable_a, throwable_b⟩, w₁, w₂, value_a, value_b, applied⟩
    exact ⟨w₁, w₂, ⟨throwable_a, value_a⟩, ⟨throwable_b, value_b⟩, applied⟩
  · rintro ⟨w₁, w₂, ⟨throwable_a, value_a⟩, ⟨throwable_b, value_b⟩, applied⟩
    exact ⟨⟨throwable_a, throwable_b⟩, w₁, w₂, value_a, value_b, applied⟩

variable {σ : Type} [Roller σ] {ready : σ → Prop}

theorem ready_of_evaluate (steady : Roller.Steady face ready) {e : Expr} {v : Int32} {s t : σ}
    (start : ready s) (h : (evaluate refs e).run s = .ok v t) : ready t := by
  obtain ⟨o, rolled, -⟩ := run_evaluate_eq_ok.mp h
  exact (steady.roll_expr start rolled).2.2

theorem comesTo_of_settle (steady : Roller.Steady face ready) {e e' : Expr} {s u : σ} (start : ready s)
    (h : (settle refs e).run s = .ok e' u) :
    ready u ∧ ∀ v, ComesTo face refs e v ↔ ComesTo face refs e' v := by
  induction e generalizing e' s u with
  | leaf l =>
    cases h
    exact ⟨start, fun v => Iff.rfl⟩
  | unary op x ih =>
    cases op with
    | rolled =>
      obtain ⟨w, evaluated, rfl⟩ := run_map_eq_ok.mp h
      have total : ComesTo face refs x w := throwable_and_shownValue_of_evaluate steady start evaluated
      refine ⟨ready_of_evaluate steady start evaluated, fun v => ?_⟩
      rw [comesTo_unary, comesTo_num]
      constructor
      · rintro ⟨w', total', applied⟩
        cases applied
        exact total.unique total'
      · rintro rfl
        exact ⟨w, total, rfl⟩
    | abs =>
      obtain ⟨x', settled, rfl⟩ := run_map_eq_ok.mp h
      obtain ⟨finish, same⟩ := ih start settled
      exact ⟨finish, fun v => by simp only [comesTo_unary, same]⟩
  | binary op a b iha ihb =>
    obtain ⟨a', u₁, first, h⟩ := run_bind_eq_ok.mp h
    obtain ⟨b', u₂, second, h⟩ := run_bind_eq_ok.mp h
    cases h
    obtain ⟨between, same_a⟩ := iha start first
    obtain ⟨finish, same_b⟩ := ihb between second
    exact ⟨finish, fun v => by simp only [comesTo_binary, same_a, same_b]⟩

theorem exists_settle (unfailing : Roller.Unfailing face ready) {e : Expr} {v : Int32} {s : σ}
    (start : ready s) (total : ComesTo face refs e v) :
    ∃ e' u, (settle refs e).run s = .ok e' u := by
  induction e generalizing v s with
  | leaf l => exact ⟨.leaf l, s, rfl⟩
  | unary op x ih =>
    obtain ⟨w, total_x, -⟩ := comesTo_unary.mp total
    cases op with
    | rolled =>
      obtain ⟨u, evaluated⟩ := (exists_evaluate_iff unfailing start).mpr total_x
      exact ⟨num w, u, run_map_eq_ok.mpr ⟨w, evaluated, rfl⟩⟩
    | abs =>
      obtain ⟨x', u, settled⟩ := ih start total_x
      exact ⟨.unary .abs x', u, run_map_eq_ok.mpr ⟨x', settled, rfl⟩⟩
  | binary op a b iha ihb =>
    obtain ⟨w₁, w₂, total_a, total_b, -⟩ := comesTo_binary.mp total
    obtain ⟨a', u₁, first⟩ := iha start total_a
    obtain ⟨b', u₂, second⟩ := ihb (comesTo_of_settle unfailing.steady start first).1 total_b
    exact ⟨.binary op a' b', u₂, run_bind_eq_ok.mpr ⟨a', u₁, first, run_bind_eq_ok.mpr ⟨b', u₂, second, rfl⟩⟩⟩

/-- An expression has a total exactly if it can be settled and what is settled has that total, so it has none
exactly if it cannot be settled or what is settled has none. What is settled may be evaluated from any state of the
roller, the one that settling ends in among them. -/
theorem evaluate_settle_iff (unfailing : Roller.Unfailing face ready) {e : Expr} {s s' : σ}
    (start : ready s) (start' : ready s') :
    (∀ v, (∃ t, (evaluate refs e).run s = .ok v t) ↔
      ∃ e' u, (settle refs e).run s = .ok e' u ∧ ready u ∧ ∃ t, (evaluate refs e').run s' = .ok v t) ∧
    ((∃ failure t, (evaluate refs e).run s = .error failure t) ↔
      (∃ failure u, (settle refs e).run s = .error failure u) ∨
        ∃ e' u, (settle refs e).run s = .ok e' u ∧
          ∃ failure t, (evaluate refs e').run s' = .error failure t) := by
  have total_iff : ∀ v, (∃ t, (evaluate refs e).run s = .ok v t) ↔
      ∃ e' u, (settle refs e).run s = .ok e' u ∧ ready u ∧ ∃ t, (evaluate refs e').run s' = .ok v t := by
    intro v
    rw [exists_evaluate_iff unfailing start]
    simp only [exists_evaluate_iff unfailing start']
    constructor
    · intro total
      obtain ⟨e', u, settled⟩ := exists_settle unfailing start total
      obtain ⟨finish, same⟩ := comesTo_of_settle unfailing.steady start settled
      exact ⟨e', u, settled, finish, (same v).mp total⟩
    · rintro ⟨e', u, settled, -, total⟩
      exact ((comesTo_of_settle unfailing.steady start settled).2 v).mpr total
  refine ⟨total_iff, ?_⟩
  simp only [exists_run_eq_error_iff (x := evaluate refs _), total_iff]
  cases settled : (settle refs e).run s with
  | error failure u => simp
  | ok e' u =>
    have finish := (comesTo_of_settle unfailing.steady start settled).1
    simp [finish]

theorem evaluate_settle_iff_nested :
    let x : Expr := .unary .rolled (.binary .sum (die 6) (.unary .rolled (num 2)))
    let e : Expr := .binary .difference (.binary .power x (num 2)) (.binary .max (ref "STR") (die 4))
    let refs : References := fun _ => some 3
    Roller.Unfailing id (· = Source.highest) ∧
      (evaluate refs e).run Source.highest = .ok 60 Source.highest ∧
      ∃ e' u, (settle refs e).run Source.highest = .ok e' u ∧ u = Source.highest ∧
        ∃ t, (evaluate refs e').run Source.highest = .ok 60 t := by
  intro x e refs
  have total : (evaluate refs e).run Source.highest = .ok 60 Source.highest := rfl
  exact ⟨Source.unfailing_highest, total,
    ((evaluate_settle_iff Source.unfailing_highest rfl rfl).1 60).mp ⟨_, total⟩⟩

end Expr
end DiceAlgebra
