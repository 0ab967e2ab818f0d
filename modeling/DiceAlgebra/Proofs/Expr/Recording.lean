import DiceAlgebra.Proofs.Roller.Script

/-! What is thrown, and what is on record afterwards. An expression throws its dice from left to right, each of
them once, and its outcome has the expression's own layout with every roll in its place. -/
namespace DiceAlgebra

/-- How many dice are thrown for it. Constants are not thrown. -/
def Dice.rollCount (d : Dice) : Nat :=
  if d.isConstant then 0 else d.magnitude

/-- A throw of these dice, with one roll for each of them. -/
structure Throw.Of (d : Dice) (t : Throw) : Prop where
  dice : t.dice = d
  length_rolls : t.rolls.length = d.rollCount

namespace Expr

/-- What a leaf turns into: a number stays, a reference is kept with its value, and dice are kept with their
rolls. A die is kept as the dice it stands for, where no faces count as one. -/
inductive Leaf.ThrownAs (refs : References) : Leaf → Outcome.Leaf → Prop where
  | die {faces : UInt32} {t : Throw} : Throw.Of (.die faces) t → ThrownAs refs (.die faces) (.die t)
  | num (value : Int32) : ThrownAs refs (.num value) (.num value)
  | ref {name : String} {value : Int32} : refs name = some value →
    ThrownAs refs (.ref name) (.ref name value)
  | pool {p : Pool} {ts : List Throw} : List.Forall₂ Throw.Of p.entries ts →
    ThrownAs refs (.pool p) (.pool ts)

open Source

private theorem foldr_one {α : Type} (as : List α) :
    as.foldr (fun _ n => 1 + n) 0 = as.length := by
  induction as with
  | nil => rfl
  | cons a as ih => rw [List.foldr_cons, ih, List.length_cons, Nat.add_comm]

theorem draws_roll_dice {d : Dice} (throwable : d.Throwable) :
    Draws d.roll d.rollCount fun drawn t => t.rolls = drawn ∧ Throw.Of d t := by
  unfold Dice.roll Dice.rollCount
  by_cases constant : d.isConstant = true
  · rw [if_pos constant, if_pos constant]
    exact draws_pure ⟨rfl, rfl, by rw [Dice.rollCount, if_pos constant]; rfl⟩
  · have few := throwable.resolve_left constant
    rw [if_neg constant, if_neg constant, if_neg (Nat.not_lt.mpr few)]
    have each : ∀ faces ∈ List.replicate d.magnitude d.faces,
        Draws (rollDie faces) 1 fun drawn face => [face] = drawn ∧ True := fun faces _ =>
      (draws_rollDie faces).mono fun _ _ recorded => ⟨recorded, trivial⟩
    have rolls := draws_mapM_list each
    rw [foldr_one, List.length_replicate] at rolls
    refine rolls.map fun drawn rolled ⟨recorded, matched⟩ => ?_
    rw [List.flatMap_singleton'] at recorded
    refine ⟨recorded, rfl, ?_⟩
    rw [← matched.length_eq, List.length_replicate, Dice.rollCount, if_neg constant]

theorem isConstant_die (faces : UInt32) : (Dice.die faces).isConstant = true ↔ faces < 2 := by
  have below : faces < 2 ↔ faces.toNat < 2 := UInt32.lt_iff_toNat_lt
  have above : 0 < faces ↔ 0 < faces.toNat := UInt32.lt_iff_toNat_lt
  have one : faces = 1 ↔ faces.toNat = 1 := UInt32.toNat_inj.symm
  rw [Dice.isConstant_iff, Dice.die, Dice.ofParts_faces, below]
  split
  · next pos =>
    have := above.mp pos
    rw [one]
    omega
  · next zero =>
    have := mt above.mpr zero
    exact iff_of_true rfl (by omega)

theorem rollCount_die (faces : UInt32) : (Dice.die faces).rollCount = (Leaf.die faces).rollCount := by
  rw [Dice.rollCount, Leaf.rollCount, Dice.magnitude, Dice.die_count]
  simp only [isConstant_die]
  rfl

theorem draws_roll_leaf {refs : References} {l : Leaf}
    (resolved : ∀ name, l = .ref name → (refs name).isSome = true)
    (throwable : l.Throwable) :
    Draws (l.roll refs) l.rollCount fun drawn thrown => thrown.rolls = drawn ∧ l.ThrownAs refs thrown := by
  cases l with
  | die faces =>
    have die := draws_roll_dice (throwable_die faces)
    rw [rollCount_die] at die
    exact (die.adaptExcept _).map fun drawn t ⟨recorded, thrown⟩ => ⟨recorded, .die thrown⟩
  | num value => exact draws_pure ⟨rfl, .num value⟩
  | ref name =>
    obtain ⟨value, known⟩ := Option.isSome_iff_exists.mp (resolved name rfl)
    simp only [Leaf.roll, known]
    exact draws_pure ⟨rfl, .ref known⟩
  | pool p =>
    have entries := draws_mapM_list fun d member => draws_roll_dice (throwable d member)
    exact (entries.adaptExcept _).map fun drawn ts ⟨recorded, thrown⟩ => ⟨recorded, .pool thrown⟩

/-- With enough values left in the script, an expression that names no unknown reference and asks for no more
dice at a time than may be thrown takes exactly one value for each die. They stand in the outcome in the order
of the script. -/
theorem run_roll_script {refs : References} {e : Expr} {values : List UInt32}
    (resolved : ∀ name, .ref name ∈ e.leaves → (refs name).isSome = true)
    (throwable : ∀ l ∈ e.leaves, l.Throwable) (enough : e.rollCount ≤ values.length) :
    ∃ o : Outcome, (roll refs e).run (script values) = .ok o (script (values.drop e.rollCount)) ∧
      o.rolls = values.take e.rollCount ∧ Formula.Forall₂ (Leaf.ThrownAs refs) e o := by
  have each : ∀ l ∈ e.leaves, Draws (l.roll refs) l.rollCount fun drawn thrown =>
      thrown.rolls = drawn ∧ l.ThrownAs refs thrown := fun l member =>
    draws_roll_leaf (fun name same => resolved name (same ▸ member)) (throwable l member)
  have all : Draws (e.mapM (Leaf.roll refs)) e.rollCount fun drawn o =>
      o.leaves.flatMap Outcome.Leaf.rolls = drawn ∧ Formula.Forall₂ (Leaf.ThrownAs refs) e o :=
    draws_mapM_formula each
  have taken : (values.take e.rollCount).length = e.rollCount := by
    rw [List.length_take]
    omega
  obtain ⟨o, run, recorded, thrown⟩ := all (values.take e.rollCount) (values.drop e.rollCount) taken
  rw [List.take_append_drop] at run
  exact ⟨o, run, recorded, thrown⟩

theorem run_roll_script_six :
    let e : Expr := .binary .max
      (.binary .sum (ref "STR") (pool (.ofList [.ofParts 2 6, .constant 3, .ofParts (-1) 4])))
      (.binary .power (die 8) (num 2))
    let refs : References := fun name => if name = "STR" then some 4 else none
    let values : List UInt32 := [2, 5, 1, 7, 9, 9]
    (∀ name, .ref name ∈ e.leaves → (refs name).isSome = true) ∧
      (∀ l ∈ e.leaves, l.Throwable) ∧ e.rollCount ≤ values.length ∧
      ∃ o : Outcome, (roll refs e).run (script values) = .ok o (script [9, 9]) ∧
        o.rolls = [2, 5, 1, 7] ∧ Formula.Forall₂ (Leaf.ThrownAs refs) e o := by
  intro e refs values
  have resolved : ∀ name, .ref name ∈ e.leaves → (refs name).isSome = true := by
    simp [e, refs, Formula.leaves]
  have throwable : ∀ l ∈ e.leaves, l.Throwable := by
    simp only [e, Formula.leaves, List.cons_append, List.nil_append, List.forall_mem_cons,
      Leaf.Throwable, true_and, List.not_mem_nil, false_imp_iff, implies_true, and_true]
    decide
  have enough : e.rollCount ≤ values.length := by decide
  exact ⟨resolved, throwable, enough, run_roll_script resolved throwable enough⟩

end Expr
end DiceAlgebra
