import DiceAlgebra.Proofs.Roller.Run
import DiceAlgebra.Roller.Source

/-! What a step asks of its roller. All that a throw wants to know is what the dice show, one after the other. So it
succeeds exactly if the roller shows something for each die it is asked for, and what the throw comes to can be
read off a script of the values shown. Steps in a row ask for their dice in a row. -/
namespace DiceAlgebra

open Source

/-- Asked for dice with these faces in turn, the roller shows these values and goes from one state to another. -/
inductive Roller.Shows {σ : Type} [Roller σ] : List UInt32 → List UInt32 → σ → σ → Prop where
  | nil (s : σ) : Shows [] [] s s
  | cons {faces value : UInt32} {asked shown : List UInt32} {s u t : σ} :
    Roller.rollDie? faces s = some (value, u) → Shows asked shown u t →
      Shows (faces :: asked) (value :: shown) s t

section Shows

variable {σ : Type} [Roller σ] {s t : σ} {asked asked' shown : List UInt32}

theorem Roller.Shows.length_eq (all : Shows asked shown s t) : shown.length = asked.length := by
  induction all with
  | nil s => rfl
  | cons shows later ih => exact congrArg (· + 1) ih

theorem Roller.shows_append_iff :
    Shows (asked ++ asked') shown s t ↔
      ∃ first second u, first ++ second = shown ∧ Shows asked first s u ∧ Shows asked' second u t := by
  induction asked generalizing shown s with
  | nil =>
    constructor
    · exact fun all => ⟨[], shown, s, rfl, .nil s, all⟩
    · rintro ⟨_, second, u, rfl, ⟨⟩, all⟩
      exact all
  | cons faces asked ih =>
    constructor
    · intro all
      cases all with
      | cons shows later =>
        obtain ⟨first, second, u, rfl, head, tail⟩ := ih.mp later
        exact ⟨_ :: first, second, u, rfl, .cons shows head, tail⟩
    · rintro ⟨_, second, u, rfl, head, tail⟩
      cases head with
      | cons shows later => exact .cons shows (ih.mpr ⟨_, second, u, rfl, later, tail⟩)

theorem Source.shows_script_iff {values : List UInt32} {t : Source} :
    Roller.Shows asked shown (script values) t ↔
      ∃ rest, shown ++ rest = values ∧ t = script rest ∧ shown.length = asked.length := by
  induction asked generalizing shown values with
  | nil =>
    constructor
    · rintro ⟨⟩
      exact ⟨values, rfl, rfl, rfl⟩
    · rintro ⟨rest, rfl, rfl, none⟩
      rw [List.length_eq_zero_iff.mp none]
      exact .nil _
  | cons faces asked ih =>
    constructor
    · intro all
      cases all with
      | @cons _ value _ _ _ u _ shows later =>
        cases values with
        | nil => cases shows
        | cons first values =>
          cases shows
          obtain ⟨rest, rfl, ended, length⟩ := ih.mp later
          exact ⟨rest, rfl, ended, congrArg (· + 1) length⟩
    · rintro ⟨rest, rfl, rfl, length⟩
      cases shown with
      | nil => cases length
      | cons value shown => exact .cons rfl (ih.mpr ⟨rest, rfl, rfl, Nat.succ.inj length⟩)

/-- The roller does not run dry, whatever it is asked for from here on. -/
def Roller.Endless (s : σ) : Prop :=
  ∀ asked, ∃ shown t, Shows asked shown s t

theorem Roller.endless_of_ready (ready : σ → Prop) (start : ready s)
    (step : ∀ faces s, ready s → ∃ value t, Roller.rollDie? faces s = some (value, t) ∧ ready t) :
    Roller.Endless s := by
  intro asked
  induction asked generalizing s with
  | nil => exact ⟨[], s, .nil s⟩
  | cons faces asked ih =>
    obtain ⟨value, u, shows, between⟩ := step faces s start
    obtain ⟨shown, t, later⟩ := ih between
    exact ⟨value :: shown, t, .cons shows later⟩

theorem Source.endless_iff {s : Source} : Roller.Endless s ↔ s.remaining? = none := by
  constructor
  · intro endless
    cases s with
    | constant value | highest | random g => rfl
    | script values =>
      obtain ⟨shown, t, shows⟩ := endless (List.replicate (values.length + 1) 6)
      obtain ⟨rest, rfl, -, length⟩ := shows_script_iff.mp shows
      rw [List.length_replicate, List.length_append] at length
      omega
  · intro start
    refine Roller.endless_of_ready (fun s : Source => s.remaining? = none) start fun faces s unlimited => ?_
    cases s with
    | constant value | highest | random g => exact ⟨_, _, rfl, rfl⟩
    | script values => cases unlimited

end Shows

variable {ε ε' α β : Type}

/-- The step asks for dice with these faces in turn and for nothing else. What the roller shows is all it depends on:
it comes to the same when it reads the values off a script. -/
def Asks (step : (σ : Type) → [Roller σ] → EStateM ε σ α) (asked : List UInt32) : Prop :=
  ∀ (σ : Type) [Roller σ] (s t : σ) (a : α), (step σ).run s = .ok a t ↔
    ∃ shown, Roller.Shows asked shown s t ∧ (step Source).run (script shown) = .ok a (script [])

theorem asks_pure (a : α) : Asks (fun σ _ => (pure a : EStateM ε σ α)) [] := by
  intro σ _ s t b
  constructor
  · rintro ⟨⟩
    exact ⟨[], .nil s, rfl⟩
  · rintro ⟨_, ⟨⟩, ⟨⟩⟩
    rfl

theorem asks_throw (e : ε) (asked : List UInt32) : Asks (fun σ _ => (throw e : EStateM ε σ α)) asked := by
  intro σ _ s t b
  constructor
  · rintro ⟨⟩
  · rintro ⟨_, -, ⟨⟩⟩

theorem run_rollDie_eq_ok {σ : Type} [Roller σ] {faces face : UInt32} {s t : σ} :
    (rollDie faces).run s = .ok face t ↔ Roller.rollDie? faces s = some (face, t) := by
  change rollDie faces s = _ ↔ _
  rw [rollDie]
  split
  · next shown next shows => simp [shows]
  · next dry => simp [dry]

theorem asks_rollDie (faces : UInt32) : Asks (fun σ _ => rollDie (σ := σ) faces) [faces] := by
  intro σ _ s t value
  rw [run_rollDie_eq_ok]
  constructor
  · exact fun shows => ⟨[value], .cons shows (.nil t), rfl⟩
  · rintro ⟨_, shows, ran⟩
    cases shows with
    | cons shows later =>
      cases later
      cases ran
      exact shows

namespace Asks

variable {step : (σ : Type) → [Roller σ] → EStateM ε σ α} {asked asked' : List UInt32}

theorem run_script_iff (h : Asks step asked) {values : List UInt32} {t : Source} {a : α} :
    (step Source).run (script values) = .ok a t ↔
      ∃ first rest, first ++ rest = values ∧ t = script rest ∧ first.length = asked.length ∧
        (step Source).run (script first) = .ok a (script []) := by
  rw [h]
  simp only [shows_script_iff]
  constructor
  · rintro ⟨first, ⟨rest, divided, ended, length⟩, ran⟩
    exact ⟨first, rest, divided, ended, length, ran⟩
  · rintro ⟨first, rest, divided, ended, length, ran⟩
    exact ⟨first, ⟨rest, divided, ended, length⟩, ran⟩

theorem map (h : Asks step asked) (f : α → β) : Asks (fun σ _ => f <$> step σ) asked := by
  intro σ _ s t b
  simp only [run_map_eq_ok, h σ s t]
  constructor
  · rintro ⟨a, ⟨shown, shows, ran⟩, rfl⟩
    exact ⟨shown, shows, a, ran, rfl⟩
  · rintro ⟨shown, shows, a, ran, rfl⟩
    exact ⟨a, ⟨shown, shows, ran⟩, rfl⟩

theorem adaptExcept (h : Asks step asked) (f : ε → ε') : Asks (fun σ _ => (step σ).adaptExcept f) asked := by
  intro σ _ s t a
  simp only [run_adaptExcept_eq_ok, h σ s t]

theorem bind {next : α → (σ : Type) → [Roller σ] → EStateM ε σ β} (h : Asks step asked)
    (h' : ∀ a, Asks (next a) asked') : Asks (fun σ _ => step σ >>= fun a => next a σ) (asked ++ asked') := by
  intro σ _ s t b
  simp only [run_bind_eq_ok, Roller.shows_append_iff]
  constructor
  · rintro ⟨a, u, ran, ran'⟩
    obtain ⟨first, shows, read⟩ := (h σ s u a).mp ran
    obtain ⟨second, shows', read'⟩ := (h' a σ u t b).mp ran'
    have whole : (step Source).run (script (first ++ second)) = .ok a (script second) :=
      h.run_script_iff.mpr ⟨first, second, rfl, rfl, shows.length_eq, read⟩
    exact ⟨first ++ second, ⟨first, second, u, rfl, shows, shows'⟩, a, script second, whole, read'⟩
  · rintro ⟨_, ⟨first, second, u, rfl, shows, shows'⟩, a, v, read, read'⟩
    obtain ⟨first', rest, divided, rfl, length, read_first⟩ := h.run_script_iff.mp read
    obtain ⟨rfl, rfl⟩ := List.append_inj divided (length.trans shows.length_eq.symm)
    exact ⟨a, u, (h σ s u a).mpr ⟨first', shows, read_first⟩, (h' a σ u t b).mpr ⟨rest, shows', read'⟩⟩

end Asks

theorem asks_mapM_list {f : α → (σ : Type) → [Roller σ] → EStateM ε σ β} {asked : α → List UInt32} (as : List α)
    (each : ∀ a, Asks (f a) (asked a)) : Asks (fun σ _ => as.mapM fun a => f a σ) (as.flatMap asked) := by
  induction as with
  | nil =>
    simp only [List.mapM_nil]
    exact asks_pure []
  | cons a as ih =>
    simp only [List.mapM_cons, List.flatMap_cons]
    exact (each a).bind fun b => ih.map (b :: ·)

theorem asks_mapM_formula {f : α → (σ : Type) → [Roller σ] → EStateM ε σ β} {asked : α → List UInt32}
    (x : Formula α) (each : ∀ a, Asks (f a) (asked a)) :
    Asks (fun σ _ => x.mapM fun a => f a σ) (x.leaves.flatMap asked) := by
  induction x with
  | leaf a =>
    rw [Formula.leaves, List.flatMap_singleton]
    exact (each a).map Formula.leaf
  | unary op x ih => exact ih.map (Formula.unary op)
  | binary op a b iha ihb =>
    rw [Formula.leaves, List.flatMap_append]
    exact iha.bind fun c => ihb.map (Formula.binary op c)

/-- The faces of the dice to throw, one for each die. Constants are not thrown. -/
def Dice.toThrow (d : Dice) : List UInt32 :=
  if d.isConstant then [] else List.replicate d.magnitude d.faces

theorem asks_roll_dice (d : Dice) : Asks (fun σ _ => d.roll (σ := σ)) d.toThrow := by
  unfold Dice.roll Dice.toThrow
  by_cases constant : d.isConstant = true
  · simp only [if_pos constant]
    exact asks_pure _
  · simp only [if_neg constant]
    by_cases many : maxRolls < d.magnitude
    · simp only [if_pos many]
      exact asks_throw _ _
    · simp only [if_neg many]
      have rolls := asks_mapM_list (List.replicate d.magnitude d.faces) asks_rollDie
      rw [List.flatMap_singleton'] at rolls
      exact rolls.map (Throw.mk d)

namespace Expr

def Leaf.toThrow : Leaf → List UInt32
  | die faces => (Dice.die faces).toThrow
  | num _ | ref _ => []
  | pool p => p.entries.flatMap Dice.toThrow

def toThrow (e : Expr) : List UInt32 :=
  e.leaves.flatMap Leaf.toThrow

theorem asks_roll_leaf (refs : References) (l : Leaf) : Asks (fun σ _ => l.roll (σ := σ) refs) l.toThrow := by
  cases l with
  | die faces => exact ((asks_roll_dice (.die faces)).adaptExcept _).map _
  | num value => exact asks_pure _
  | ref name =>
    cases known : refs name with
    | none =>
      simp only [Leaf.roll, known]
      exact asks_throw _ _
    | some value =>
      simp only [Leaf.roll, known]
      exact asks_pure _
  | pool p => exact ((asks_mapM_list p.entries asks_roll_dice).adaptExcept _).map _

theorem asks_roll (refs : References) (e : Expr) : Asks (fun σ _ => roll (σ := σ) refs e) e.toThrow :=
  asks_mapM_formula e (asks_roll_leaf refs)

theorem asks_evaluate (refs : References) (e : Expr) :
    Asks (fun σ _ => evaluate (σ := σ) refs e) e.toThrow := by
  unfold evaluate
  rw [← List.append_nil e.toThrow]
  refine ((asks_roll refs e).adaptExcept Failure.throwing).bind fun o => ?_
  cases Outcome.value o with
  | ok v => exact asks_pure _
  | error failure => exact asks_throw _ _

end Expr
end DiceAlgebra
