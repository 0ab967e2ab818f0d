import DiceAlgebra.Proofs.Roller.Failing

/-! The leaf that keeps an expression from being thrown. A name may be unknown, and dice may be too many to be
thrown at a time; anything else is thrown as long as the roller does not run dry. As leaves are thrown from left to
right, and so are the entries of a pool, it is the first such leaf that is reported, with the first such entry, and
just the dice to its left have been thrown by then. -/
namespace DiceAlgebra

theorem exists_first_not {α : Type} {P : α → Prop} {as : List α} (h : ¬ ∀ a ∈ as, P a) :
    ∃ before a after, as = before ++ a :: after ∧ (∀ b ∈ before, P b) ∧ ¬ P a := by
  classical
  have found : (as.find? fun a => ¬ P a).isSome = true := by simpa using h
  obtain ⟨a, found⟩ := Option.isSome_iff_exists.mp found
  obtain ⟨fails, before, after, divided, all⟩ := List.find?_eq_some_iff_append.mp found
  exact ⟨before, a, after, divided, by simpa using all, by simpa using fails⟩

section Dice

variable {σ : Type} [Roller σ] {d : Dice} {s t : σ}

theorem not_throwable_iff : ¬ d.Throwable ↔ d.isConstant = false ∧ maxRolls < d.magnitude := by
  rw [Dice.Throwable, not_or, Bool.not_eq_true, Nat.not_le]

theorem exists_run_rollDie_iff (faces : UInt32) (s t : σ) :
    (∃ face, (rollDie faces).run s = .ok face t) ↔ True ∧ ∃ shown, Roller.Shows [faces] shown s t := by
  simp only [run_rollDie_eq_ok, true_and]
  constructor
  · rintro ⟨face, shows⟩
    exact ⟨[face], .cons shows (.nil t)⟩
  · rintro ⟨_, shows⟩
    cases shows with
    | cons shows later =>
      cases later
      exact ⟨_, shows⟩

theorem exists_run_roll_dice_iff (d : Dice) (s t : σ) :
    (∃ thrown, d.roll.run s = .ok thrown t) ↔ d.Throwable ∧ ∃ shown, Roller.Shows d.toThrow shown s t := by
  unfold Dice.roll Dice.toThrow
  by_cases constant : d.isConstant = true
  · rw [if_pos constant, if_pos constant]
    constructor
    · rintro ⟨_, ⟨⟩⟩
      exact ⟨Or.inl constant, [], .nil _⟩
    · rintro ⟨-, _, ⟨⟩⟩
      exact ⟨_, rfl⟩
  rw [if_neg constant, if_neg constant]
  by_cases many : maxRolls < d.magnitude
  · rw [if_pos many]
    constructor
    · rintro ⟨_, ⟨⟩⟩
    · rintro ⟨throwable, -⟩
      exact absurd many (Nat.not_lt.mpr (throwable.resolve_left constant))
  · have rolls := exists_run_mapM_list_iff exists_run_rollDie_iff (List.replicate d.magnitude d.faces) s t
    rw [List.flatMap_singleton'] at rolls
    rw [if_neg many, exists_run_map_iff, rolls]
    exact ⟨fun h => ⟨Or.inr (Nat.not_lt.mp many), h.2⟩, fun h => ⟨fun _ _ => trivial, h.2⟩⟩

theorem run_roll_dice_eq_tooManyRolls {c : Dice} :
    d.roll.run s = .error (.tooManyRolls c) t ↔ ¬ d.Throwable ∧ d = c ∧ s = t := by
  unfold Dice.roll
  by_cases constant : d.isConstant = true
  · rw [if_pos constant]
    constructor
    · rintro ⟨⟩
    · rintro ⟨refused, -⟩
      exact absurd (Or.inl constant) refused
  rw [if_neg constant]
  by_cases many : maxRolls < d.magnitude
  · rw [if_pos many]
    constructor
    · rintro ⟨⟩
      exact ⟨fun throwable => Nat.not_lt.mpr (throwable.resolve_left constant) many, rfl, rfl⟩
    · rintro ⟨-, rfl, rfl⟩
      rfl
  · rw [if_neg many, run_map_eq_error, run_mapM_list_eq_error]
    constructor
    · rintro ⟨_, _, _, _, u, -, -, failed⟩
      cases (run_rollDie_eq_error.mp failed).2.1
    · rintro ⟨refused, -⟩
      exact absurd (Or.inr (Nat.not_lt.mp many)) refused

end Dice

namespace Expr

/-- Nothing about the leaf keeps it from being thrown: its name is known, and its dice are not too many. -/
def Leaf.Accepted (refs : References) : Leaf → Prop
  | .ref name => (refs name).isSome = true
  | l => l.Throwable

/-- The leaf cannot be thrown for this reason, found out after dice with these faces have been thrown for it. -/
inductive Leaf.Refused (refs : References) : Leaf → List UInt32 → EvalError → Prop where
  | ref {name : String} : refs name = none → Refused refs (.ref name) [] (.unresolved name)
  | pool {p : Pool} {before after : List Dice} {d : Dice} : p.entries = before ++ d :: after →
    (∀ c ∈ before, c.Throwable) → ¬ d.Throwable →
      Refused refs (.pool p) (before.flatMap Dice.toThrow) (.tooManyRolls (.pool p) d)

/-- The first leaf that cannot be thrown, the reason, and the faces of the dice that are thrown before: those of the
leaves to its left, and what is thrown for the leaf itself. -/
def FirstRefusal (refs : References) (e : Expr) (asked : List UInt32) (error : EvalError) : Prop :=
  ∃ before l after thrown, e.leaves = before ++ l :: after ∧ (∀ k ∈ before, k.Accepted refs) ∧
    l.Refused refs thrown error ∧ before.flatMap Leaf.toThrow ++ thrown = asked

section Refusals

variable {refs : References} {l : Leaf} {e : Expr} {asked : List UInt32} {error : EvalError}

theorem Leaf.not_accepted_iff :
    ¬ l.Accepted refs ↔ (∃ name, l = .ref name ∧ refs name = none) ∨
      ∃ p d, l = .pool p ∧ d ∈ p.entries ∧ d.isConstant = false ∧ maxRolls < d.magnitude := by
  cases l with
  | die faces | num value => simp [Leaf.Accepted, Leaf.Throwable]
  | ref name => simp [Leaf.Accepted]
  | pool p => simp [Leaf.Accepted, Leaf.Throwable, ← not_throwable_iff]

theorem Leaf.exists_refused_iff : (∃ thrown error, l.Refused refs thrown error) ↔ ¬ l.Accepted refs := by
  constructor
  · rintro ⟨_, _, refused⟩
    cases refused with
    | ref unknown => simp [Accepted, unknown]
    | @pool p before after d divided throwable refused =>
      intro accepted
      exact refused (accepted d (by simp [divided]))
  · intro refused
    cases l with
    | die faces | num value => exact absurd trivial refused
    | ref name =>
      have unknown : refs name = none := by simpa [Accepted] using refused
      exact ⟨_, _, .ref unknown⟩
    | pool p =>
      obtain ⟨before, d, after, divided, throwable, many⟩ := exists_first_not refused
      exact ⟨_, _, .pool divided throwable many⟩

theorem exists_firstRefusal_iff :
    (∃ asked error, FirstRefusal refs e asked error) ↔ ∃ l ∈ e.leaves, ¬ l.Accepted refs := by
  constructor
  · rintro ⟨_, error, before, l, after, thrown, divided, -, refused, -⟩
    exact ⟨l, by simp [divided], Leaf.exists_refused_iff.mp ⟨thrown, error, refused⟩⟩
  · rintro ⟨l, member, refused⟩
    obtain ⟨before, l', after, divided, accepted, refused⟩ := exists_first_not fun all => refused (all l member)
    obtain ⟨thrown, error, refused⟩ := Leaf.exists_refused_iff.mpr refused
    exact ⟨_, error, before, l', after, thrown, divided, accepted, refused, rfl⟩

theorem FirstRefusal.ne_exhausted (refusal : FirstRefusal refs e asked error) : error ≠ .exhausted := by
  obtain ⟨_, _, _, _, -, -, refused, -⟩ := refusal
  cases refused <;> simp

end Refusals

section Runs

variable {σ : Type} [Roller σ] {refs : References} {s t : σ}

theorem exists_run_roll_leaf_iff (l : Leaf) (s t : σ) :
    (∃ thrown, (l.roll refs).run s = .ok thrown t) ↔
      l.Accepted refs ∧ ∃ shown, Roller.Shows l.toThrow shown s t := by
  cases l with
  | die faces =>
    simp only [Leaf.roll, exists_run_map_iff, run_adaptExcept_eq_ok]
    rw [exists_run_roll_dice_iff]
    exact and_congr_left' (iff_of_true (throwable_die faces) trivial)
  | num value =>
    constructor
    · rintro ⟨_, ⟨⟩⟩
      exact ⟨trivial, [], .nil _⟩
    · rintro ⟨-, _, ⟨⟩⟩
      exact ⟨_, rfl⟩
  | ref name =>
    cases known : refs name with
    | none =>
      simp only [Leaf.roll, Leaf.Accepted, known]
      constructor
      · rintro ⟨_, ⟨⟩⟩
      · rintro ⟨⟨⟩, -⟩
    | some value =>
      simp only [Leaf.roll, Leaf.Accepted, known]
      constructor
      · rintro ⟨_, ⟨⟩⟩
        exact ⟨rfl, [], .nil _⟩
      · rintro ⟨-, _, ⟨⟩⟩
        exact ⟨_, rfl⟩
  | pool p =>
    simp only [Leaf.roll, exists_run_map_iff, run_adaptExcept_eq_ok]
    exact exists_run_mapM_list_iff exists_run_roll_dice_iff p.entries s t

theorem exists_run_roll_iff (e : Expr) (s t : σ) :
    (∃ o : Outcome, (roll refs e).run s = .ok o t) ↔
      (∀ l ∈ e.leaves, l.Accepted refs) ∧ ∃ shown, Roller.Shows e.toThrow shown s t := by
  rw [roll, Formula.exists_run_mapM_iff]
  exact exists_run_mapM_list_iff exists_run_roll_leaf_iff e.leaves s t

theorem run_roll_leaf_eq_error {l : Leaf} {error : EvalError} (supplied : error ≠ .exhausted) :
    (l.roll refs).run s = .error error t ↔
      ∃ asked shown, l.Refused refs asked error ∧ Roller.Shows asked shown s t := by
  cases l with
  | die faces =>
    simp only [Leaf.roll, run_map_eq_error, run_adaptExcept_eq_error]
    constructor
    · rintro ⟨e, failed, rfl⟩
      cases e with
      | exhausted => exact absurd rfl supplied
      | tooManyRolls d => exact absurd (throwable_die faces) (run_roll_dice_eq_tooManyRolls.mp failed).1
    · rintro ⟨_, _, ⟨⟩, -⟩
  | num value =>
    constructor
    · rintro ⟨⟩
    · rintro ⟨_, _, ⟨⟩, -⟩
  | ref name =>
    cases known : refs name with
    | none =>
      simp only [Leaf.roll, known]
      constructor
      · rintro ⟨⟩
        exact ⟨[], [], .ref known, .nil _⟩
      · rintro ⟨_, _, ⟨⟩, ⟨⟩⟩
        rfl
    | some value =>
      simp only [Leaf.roll, known]
      constructor
      · rintro ⟨⟩
      · rintro ⟨_, _, ⟨unknown⟩, -⟩
        cases known.symm.trans unknown
  | pool p =>
    simp only [Leaf.roll, run_map_eq_error, run_adaptExcept_eq_error]
    rw [Pool.roll]
    simp only [run_mapM_list_eq_error_iff exists_run_roll_dice_iff]
    constructor
    · rintro ⟨e, ⟨before, d, after, shown, u, divided, throwable, shows, failed⟩, rfl⟩
      cases e with
      | exhausted => exact absurd rfl supplied
      | tooManyRolls c =>
        obtain ⟨refused, rfl, rfl⟩ := run_roll_dice_eq_tooManyRolls.mp failed
        exact ⟨_, shown, .pool divided throwable refused, shows⟩
    · rintro ⟨_, shown, refused, shows⟩
      cases refused with
      | pool divided throwable refused =>
        have failed := (run_roll_dice_eq_tooManyRolls (s := t)).mpr ⟨refused, rfl, rfl⟩
        exact ⟨_, ⟨_, _, _, shown, t, divided, throwable, shows, failed⟩, rfl⟩

theorem run_roll_eq_error {e : Expr} {error : EvalError} (supplied : error ≠ .exhausted) :
    (roll refs e).run s = .error error t ↔
      ∃ asked shown, FirstRefusal refs e asked error ∧ Roller.Shows asked shown s t := by
  rw [roll, Formula.run_mapM_eq_error, run_mapM_list_eq_error_iff exists_run_roll_leaf_iff]
  simp only [run_roll_leaf_eq_error supplied]
  constructor
  · rintro ⟨before, l, after, first, u, divided, accepted, shows, thrown, second, refused, shows'⟩
    exact ⟨_, first ++ second, ⟨before, l, after, thrown, divided, accepted, refused, rfl⟩,
      Roller.shows_append_iff.mpr ⟨first, second, u, rfl, shows, shows'⟩⟩
  · rintro ⟨_, _, ⟨before, l, after, thrown, divided, accepted, refused, rfl⟩, shows⟩
    obtain ⟨first, second, u, rfl, shows, shows'⟩ := Roller.shows_append_iff.mp shows
    exact ⟨before, l, after, first, u, divided, accepted, shows, thrown, second, refused, shows'⟩

theorem run_roll_ne_exhausted (endless : Roller.Endless s) (e : Expr) (t : σ) :
    (roll refs e).run s ≠ .error .exhausted t := by
  intro dry
  by_cases accepted : ∀ l ∈ e.leaves, l.Accepted refs
  · obtain ⟨shown, u, shows⟩ := endless e.toThrow
    obtain ⟨o, thrown⟩ := (exists_run_roll_iff e s u).mpr ⟨accepted, shown, shows⟩
    cases dry.symm.trans thrown
  · obtain ⟨asked, error, refusal⟩ := exists_firstRefusal_iff.mpr (by simpa using accepted)
    obtain ⟨shown, u, shows⟩ := endless asked
    have refused := (run_roll_eq_error refusal.ne_exhausted).mpr ⟨asked, shown, refusal, shows⟩
    cases dry.symm.trans refused
    exact refusal.ne_exhausted rfl

theorem exists_run_roll_eq_error_iff {e : Expr} (supplied : ∀ t, (roll refs e).run s ≠ .error .exhausted t) :
    (∃ error t, (roll refs e).run s = .error error t) ↔ ∃ l ∈ e.leaves, ¬ l.Accepted refs := by
  constructor
  · rintro ⟨error, t, failed⟩
    have not_dry : error ≠ .exhausted := by
      rintro rfl
      exact supplied t failed
    obtain ⟨asked, _, refusal, -⟩ := (run_roll_eq_error not_dry).mp failed
    exact exists_firstRefusal_iff.mp ⟨asked, error, refusal⟩
  · rintro ⟨l, member, refused⟩
    -- it need not be this leaf that is reported, but there is no outcome with it
    refine exists_run_eq_error_iff.mpr fun ⟨o, t, thrown⟩ => ?_
    exact refused (((exists_run_roll_iff e s t).mp ⟨o, thrown⟩).1 l member)

/-- An endless roller does not run dry. As long as a roller does not, only an unknown name or too many dice of one
kind can keep an expression from being thrown. The first leaf from the left with which that is so is reported, and the
roller has shown what it was asked for up to there and nothing more. -/
theorem run_roll_eq_error_iff (refs : References) (e : Expr) (s : σ) :
    (Roller.Endless s → ∀ t, (roll refs e).run s ≠ .error .exhausted t) ∧
    ((∀ t, (roll refs e).run s ≠ .error .exhausted t) →
      ((∃ error t, (roll refs e).run s = .error error t) ↔
        (∃ name, .ref name ∈ e.leaves ∧ refs name = none) ∨
          ∃ p d, .pool p ∈ e.leaves ∧ d ∈ p.entries ∧ d.isConstant = false ∧ maxRolls < d.magnitude)) ∧
    ∀ error t, error ≠ .exhausted → ((roll refs e).run s = .error error t ↔
      ∃ asked shown, FirstRefusal refs e asked error ∧ Roller.Shows asked shown s t) := by
  refine ⟨fun endless => run_roll_ne_exhausted endless e, ?_, fun error t supplied => run_roll_eq_error supplied⟩
  intro supplied
  rw [exists_run_roll_eq_error_iff supplied]
  simp only [Leaf.not_accepted_iff]
  constructor
  · rintro ⟨_, member, ⟨name, rfl, unknown⟩ | ⟨p, d, rfl, among, many⟩⟩
    · exact Or.inl ⟨name, member, unknown⟩
    · exact Or.inr ⟨p, d, member, among, many⟩
  · rintro (⟨name, member, unknown⟩ | ⟨p, d, member, among, many⟩)
    · exact ⟨_, member, Or.inl ⟨name, rfl, unknown⟩⟩
    · exact ⟨_, member, Or.inr ⟨p, d, rfl, among, many⟩⟩

/-- The third entry of the pool is refused, after one value for the die to its left and two for the entry before it;
the unknown name comes too late to be reported. -/
theorem run_roll_eq_error_iff_entry :
    let p : Pool := .ofList [.ofParts 2 4, .constant 200000, .ofParts (-100001) 6, .ofParts 3 8]
    let e : Expr := .binary .sum (.unary .rolled (die 6)) (.binary .max (pool p) (ref "STR"))
    let start := Source.script [5, 1, 2, 9]
    let error : EvalError := .tooManyRolls (.pool p) (.ofParts (-100001) 6)
    (Roller.Endless Source.highest ∧ ∀ t, (roll References.none e).run Source.highest ≠ .error .exhausted t) ∧
      (∀ t, (roll References.none e).run start ≠ .error .exhausted t) ∧
      (roll References.none e).run start = .error error (.script [9]) ∧
      ((∃ name, .ref name ∈ e.leaves ∧ References.none name = none) ∨
        ∃ p d, .pool p ∈ e.leaves ∧ d ∈ p.entries ∧ d.isConstant = false ∧ maxRolls < d.magnitude) ∧
      ∃ asked shown, FirstRefusal References.none e asked error ∧ Roller.Shows asked shown start (.script [9]) := by
  intro p e start error
  have endless : Roller.Endless Source.highest := Source.endless_iff.mpr rfl
  have failed : (roll References.none e).run start = .error error (.script [9]) := rfl
  have supplied : ∀ t, (roll References.none e).run start ≠ .error .exhausted t := by
    intro t
    simp [failed, error]
  obtain ⟨-, some_leaf, reported⟩ := run_roll_eq_error_iff References.none e start
  exact ⟨⟨endless, (run_roll_eq_error_iff References.none e Source.highest).1 endless⟩, supplied, failed,
    (some_leaf supplied).mp ⟨_, _, failed⟩, (reported error _ (by simp [error])).mp failed⟩

end Runs

end Expr
end DiceAlgebra
