import DiceAlgebra.Proofs.Roller.Run
import DiceAlgebra.Proofs.Throw.Total
import DiceAlgebra.Roller.Source

/-! Rollers that show the same face of the same die every time. They leave nothing to chance: an
expression has one outcome at most, found leaf by leaf without a state, and with it one total. -/
namespace DiceAlgebra

variable {σ : Type} [Roller σ]

/-- From a state that is `ready`, a die shows the face that `face` has for it, if anything, and the next
state is ready too. -/
def Roller.Steady (face : UInt32 → UInt32) (ready : σ → Prop) : Prop :=
  ∀ faces state, ready state → ∀ shown next, Roller.rollDie? faces state = some (shown, next) →
    shown = face faces ∧ ready next

theorem Source.steady_highest : Roller.Steady id (· = Source.highest) := by
  rintro faces state rfl shown next h
  cases h
  exact ⟨rfl, rfl⟩

def Dice.shown (face : UInt32 → UInt32) (d : Dice) : Throw :=
  ⟨d, if d.isConstant then [] else List.replicate d.magnitude (face d.faces)⟩

def Expr.Leaf.shown (face : UInt32 → UInt32) (refs : References) : Expr.Leaf → Option Outcome.Leaf
  | .die faces => some (.die ((Dice.die faces).shown face))
  | .num value => some (.num value)
  | .ref name => (refs name).map (.ref name)
  | .pool p => some (.pool (p.entries.map (Dice.shown face)))

namespace Roller.Steady

variable {face : UInt32 → UInt32} {ready : σ → Prop}

theorem rollDie_eq (steady : Steady face ready) {faces shown : UInt32} {s t : σ} (start : ready s)
    (h : (rollDie faces).run s = .ok shown t) : shown = face faces ∧ ready t := by
  change rollDie faces s = .ok shown t at h
  unfold rollDie at h
  split at h
  · next face' next found =>
    cases h
    exact steady faces s start _ _ found
  · cases h

theorem roll_dice (steady : Steady face ready) {d : Dice} {thrown : Throw} {s t : σ} (start : ready s)
    (h : d.roll.run s = .ok thrown t) : d.Throwable ∧ thrown = d.shown face ∧ ready t := by
  unfold Dice.roll at h
  unfold Dice.shown
  split at h
  · next constant =>
    cases h
    rw [if_pos constant]
    exact ⟨Or.inl constant, rfl, start⟩
  · next random =>
    split at h
    · cases h
    · next few =>
      rcases run_map_eq_ok.mp h with ⟨rolls, rolled, rfl⟩
      have each : ∀ faces s t shown, ready s → (rollDie faces).run s = .ok shown t →
          True ∧ shown = face faces ∧ ready t := fun faces s t shown start run =>
        ⟨trivial, steady.rollDie_eq start run⟩
      rcases run_mapM_list each start rolled with ⟨-, rfl, finish⟩
      rw [if_neg random, List.map_replicate]
      exact ⟨Or.inr (Nat.not_lt.mp few), rfl, finish⟩

theorem roll_leaf (steady : Steady face ready) {refs : References} {l : Expr.Leaf}
    {thrown : Outcome.Leaf} {s t : σ} (start : ready s) (h : (l.roll refs).run s = .ok thrown t) :
    l.Throwable ∧ l.shown face refs = some thrown ∧ ready t := by
  cases l with
  | die faces =>
    rcases run_map_eq_ok.mp h with ⟨die, rolled, rfl⟩
    rcases steady.roll_dice start (run_adaptExcept_eq_ok.mp rolled) with ⟨-, rfl, finish⟩
    exact ⟨trivial, rfl, finish⟩
  | num value =>
    cases h
    exact ⟨trivial, rfl, start⟩
  | ref name =>
    cases known : refs name with
    | none =>
      simp only [Expr.Leaf.roll, known] at h
      cases h
    | some value =>
      simp only [Expr.Leaf.roll, known] at h
      cases h
      simp [Expr.Leaf.Throwable, Expr.Leaf.shown, known, start]
  | pool p =>
    rcases run_map_eq_ok.mp h with ⟨throws, rolled, rfl⟩
    have each : ∀ (d : Dice) (s t : σ) (thrown : Throw), ready s → d.roll.run s = .ok thrown t →
        d.Throwable ∧ thrown = d.shown face ∧ ready t := fun d s t thrown => steady.roll_dice
    rcases run_mapM_list each start (run_adaptExcept_eq_ok.mp rolled) with ⟨throwable, rfl, finish⟩
    exact ⟨throwable, rfl, finish⟩

theorem roll_expr (steady : Steady face ready) {refs : References} {e : Expr} {o : Outcome} {s t : σ}
    (start : ready s) (h : (e.roll refs).run s = .ok o t) :
    (∀ l ∈ e.leaves, l.Throwable) ∧ Formula.mapM (Expr.Leaf.shown face refs) e = some o ∧ ready t := by
  have each : ∀ (l : Expr.Leaf) (s t : σ) (thrown : Outcome.Leaf), ready s →
      (l.roll refs).run s = .ok thrown t →
      l.Throwable ∧ l.shown face refs = some thrown ∧ ready t :=
    fun l s t thrown => steady.roll_leaf
  exact run_mapM_formula each start h

end Roller.Steady

def Roller.Unfailing (face : UInt32 → UInt32) (ready : σ → Prop) : Prop :=
  ∀ faces state, ready state → ∃ next,
    Roller.rollDie? faces state = some (face faces, next) ∧ ready next

theorem Source.unfailing_highest : Roller.Unfailing id (· = Source.highest) := by
  rintro faces state rfl
  exact ⟨_, rfl, rfl⟩

namespace Roller.Unfailing

variable {face : UInt32 → UInt32} {ready : σ → Prop}

theorem steady (unfailing : Unfailing face ready) : Steady face ready := by
  intro faces state start shown next h
  obtain ⟨next', rolled, finish⟩ := unfailing faces state start
  rw [rolled] at h
  cases h
  exact ⟨rfl, finish⟩

theorem exists_rollDie (unfailing : Unfailing face ready) (faces : UInt32) {s : σ} (start : ready s) :
    ∃ t, (rollDie faces).run s = .ok (face faces) t ∧ ready t := by
  obtain ⟨t, rolled, finish⟩ := unfailing faces s start
  refine ⟨t, ?_, finish⟩
  change rollDie faces s = _
  rw [rollDie, rolled]

theorem exists_roll_dice (unfailing : Unfailing face ready) {d : Dice} (throwable : d.Throwable) {s : σ}
    (start : ready s) : ∃ t, d.roll.run s = .ok (d.shown face) t ∧ ready t := by
  unfold Dice.roll Dice.shown
  by_cases constant : d.isConstant = true
  · rw [if_pos constant, if_pos constant]
    exact ⟨s, rfl, start⟩
  · have few := throwable.resolve_left constant
    have each : ∀ faces ∈ List.replicate d.magnitude d.faces, ∀ s, ready s →
        ∃ t, (rollDie faces).run s = .ok (face faces) t ∧ ready t :=
      fun faces _ s start => unfailing.exists_rollDie faces start
    obtain ⟨t, run, finish⟩ := exists_run_mapM_list each start
    rw [if_neg constant, if_neg constant, if_neg (Nat.not_lt.mpr few)]
    rw [List.map_replicate] at run
    exact ⟨t, run_map_eq_ok.mpr ⟨_, run, rfl⟩, finish⟩

theorem exists_roll_leaf (unfailing : Unfailing face ready) {refs : References} {l : Expr.Leaf}
    {thrown : Outcome.Leaf} (throwable : l.Throwable) (shown : l.shown face refs = some thrown) {s : σ}
    (start : ready s) : ∃ t, (l.roll refs).run s = .ok thrown t ∧ ready t := by
  cases l with
  | die faces =>
    cases shown
    obtain ⟨t, run, finish⟩ := unfailing.exists_roll_dice (throwable_die faces) start
    exact ⟨t, run_map_eq_ok.mpr ⟨_, run_adaptExcept_eq_ok.mpr run, rfl⟩, finish⟩
  | num value =>
    cases shown
    exact ⟨s, rfl, start⟩
  | ref name =>
    obtain ⟨value, known, rfl⟩ := Option.map_eq_some_iff.mp shown
    refine ⟨s, ?_, start⟩
    simp only [Expr.Leaf.roll, known]
    rfl
  | pool p =>
    cases shown
    obtain ⟨t, run, finish⟩ := exists_run_mapM_list
      (fun d member s start => unfailing.exists_roll_dice (throwable d member) start) start
    exact ⟨t, run_map_eq_ok.mpr ⟨_, run_adaptExcept_eq_ok.mpr run, rfl⟩, finish⟩

end Roller.Unfailing
end DiceAlgebra
