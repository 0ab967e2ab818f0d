import DiceAlgebra.Grammar.Segment

/-! Which segments stand for dice, and for which. The rule is stated on the pieces as written, in exact
numbers, and `dice_eq_ok_iff` says that the reader of a segment follows it: a sign is taken before the
count is narrowed, and nothing else can go wrong. -/
namespace DiceAlgebra

namespace Dice

/-- The signed count and the faces, as numbers. -/
def numbers (d : Dice) : Int × Nat :=
  (d.count.toInt, d.faces.toNat)

theorem numbers_inj {a b : Dice} (h : a.numbers = b.numbers) : a = b := by
  have count : a.count.toInt = b.count.toInt := congrArg Prod.fst h
  have faces : a.faces.toNat = b.faces.toNat := congrArg Prod.snd h
  exact Dice.ext (Int32.toInt_inj.mp count) (UInt32.toNat_inj.mp faces)

end Dice

namespace Grammar

def isDieMark (c : Char) : Bool :=
  c = 'd' || c = 'D'

theorem isSign_iff {c : Char} : isSign c = true ↔ c = '+' ∨ c = '-' := by
  rw [isSign, decide_eq_true_eq, signChars, List.mem_cons, List.mem_singleton]

theorem isDieMark_iff {c : Char} : isDieMark c = true ↔ c = 'd' ∨ c = 'D' := by
  rw [isDieMark, Bool.or_eq_true, decide_eq_true_eq, decide_eq_true_eq]

namespace Segment

/-- The pieces hold the characters that they may hold, which every cut sees to. -/
structure Shaped (s : Segment) : Prop where
  signs : ∀ c ∈ s.signs, isSign c = true
  count : ∀ c ∈ s.count, Text.isDigit c = true
  mark : ∀ die ∈ s.die, isDieMark die.1 = true
  faces : ∀ die ∈ s.die, ∀ c ∈ die.2, Text.isDigit c = true

section Pieces

variable {signs count : List Char} {die : Option (Char × List Char)}

theorem chars_eq_append : chars ⟨signs, count, die⟩ = signs ++ chars ⟨[], count, die⟩ := by
  simp [chars]

theorem Shaped.unsigned (shaped : Shaped ⟨signs, count, die⟩) : Shaped ⟨[], count, die⟩ :=
  ⟨by simp, shaped.count, shaped.mark, shaped.faces⟩

theorem Shaped.body_kind (shaped : Shaped ⟨[], count, die⟩) :
    ∀ c ∈ chars ⟨[], count, die⟩, Text.isDigit c = true ∨ isDieMark c = true := by
  intro c member
  rcases List.mem_append.mp member with counted | rolled
  · exact .inl (shaped.count c counted)
  · cases die with
    | none => simp at rolled
    | some die =>
      rcases List.mem_cons.mp rolled with rfl | face
      · exact .inr (shaped.mark die rfl)
      · exact .inl (shaped.faces die rfl c face)

end Pieces

theorem Shaped.kind {s : Segment} (shaped : s.Shaped) :
    ∀ c ∈ s.chars, isSign c = true ∨ Text.isDigit c = true ∨ isDieMark c = true := by
  intro c member
  rw [chars_eq_append] at member
  rcases List.mem_append.mp member with sign | body
  · exact .inl (shaped.signs c sign)
  · exact .inr (shaped.unsigned.body_kind c body)

/-- Digits alone, or a die mark that has digits behind it. -/
def HasBody (s : Segment) : Prop :=
  match s.die with
  | none => s.count ≠ []
  | some (_, faces) => faces ≠ []

/-- The count before signs. A die mark alone means one die. -/
def written (s : Segment) : Nat :=
  if s.count = [] then 1 else Text.value s.count

/-- The faces; a constant has one, and so has a die with none. -/
def sides (s : Segment) : Nat :=
  match s.die with
  | none => 1
  | some (_, faces) => if Text.value faces = 0 then 1 else Text.value faces

/-- The highest count that fits, which is one more below zero than above. -/
def limit (s : Segment) : Nat :=
  if s.signs.count '-' % 2 = 1 then 2147483648 else 2147483647

/-- The signed count and the faces that the segment speaks of, however large. -/
def numbers (s : Segment) : Int × Nat :=
  (if s.signs.count '-' % 2 = 1 then -s.written else s.written, s.sides)

/-- A segment that is written in full and within the bounds of dice. -/
structure IsSummand (s : Segment) : Prop extends Shaped s where
  body : HasBody s
  count_le : s.written ≤ s.limit
  faces_le : s.sides ≤ 4294967295

theorem magnitude_eq_ok_iff {s : Segment} {n : Nat} :
    s.magnitude = .ok n ↔
      (s.count = [] → s.die.isSome = true) ∧ s.written < UInt32.size ∧ s.written = n := by
  have one : (1 : Nat) < UInt32.size := by decide
  unfold magnitude written
  by_cases empty : s.count = []
  · by_cases marked : s.die.isSome = true <;> simp [empty, marked, one]
  · by_cases small : Text.value s.count < UInt32.size <;> simp [empty, small]

theorem numbers_fst (s : Segment) :
    s.numbers.1 = if s.isNegative then -(s.written : Int) else s.written := by
  simp [numbers, isNegative]

/-- The bound on a count is the one that 32 signed bits set once the sign is taken. -/
theorem written_le_limit_iff {s : Segment} :
    s.written ≤ s.limit ↔ ∃ count : Int32, count.toInt = s.numbers.1 := by
  have fits := fit?_eq_none_iff (n := s.numbers.1)
  constructor
  · intro bounded
    cases narrowed : fit? s.numbers.1 with
    | none =>
      have outside := fits.mp narrowed
      unfold numbers at outside
      unfold limit at bounded
      split at bounded
      · next odd => simp only [odd, ↓reduceIte] at outside; omega
      · next even => simp only [even, ↓reduceIte] at outside; omega
    | some count => exact ⟨count, fit?_eq_some_iff.mp narrowed⟩
  · rintro ⟨count, same⟩
    have bounds := toInt_bounds count
    rw [Int32.toInt_minValue, Int32.toInt_maxValue] at bounds
    unfold numbers at same
    unfold limit
    split
    · next odd => simp only [odd, ↓reduceIte] at same; omega
    · next even => simp only [even, ↓reduceIte] at same; omega

theorem isSummand_of_numbers {s : Segment} {d : Dice} (shaped : s.Shaped) (body : s.HasBody)
    (same : s.numbers = d.numbers) : s.IsSummand := by
  have count : d.count.toInt = s.numbers.1 := (congrArg Prod.fst same).symm
  have faces : s.sides = d.faces.toNat := congrArg Prod.snd same
  refine ⟨shaped, body, written_le_limit_iff.mpr ⟨d.count, count⟩, ?_⟩
  rw [faces]
  exact Nat.le_of_lt_succ d.faces.toNat_lt

private theorem written_lt_size {s : Segment} (h : s.written ≤ s.limit) :
    s.written < UInt32.size := by
  have size : UInt32.size = 4294967296 := rfl
  unfold limit at h
  split at h <;> omega

theorem dice_of_count {s : Segment} {count : Int32}
    (some_count : s.count = [] → s.die.isSome = true) (same : count.toInt = s.numbers.1) :
    s.dice = match s.die with
      | none => .ok (.constant count)
      | some (_, []) => .error .facesMissing
      | some (_, faces) =>
        if Text.value faces < UInt32.size then
          .ok (.ofParts count (UInt32.ofNat (Text.value faces)))
        else
          .error .facesTooLarge := by
  have bounded := written_le_limit_iff.mpr ⟨count, same⟩
  have magnitude := magnitude_eq_ok_iff.mpr ⟨some_count, written_lt_size bounded, rfl⟩
  have narrowed : fit? (if s.isNegative then -(s.written : Int) else s.written) = some count := by
    rw [fit?_eq_some_iff, same, numbers_fst]
  unfold dice
  rw [magnitude]
  simp only [bind, Except.bind, narrowed]
  rfl

private theorem numbers_constant {s : Segment} {count : Int32} (plain : s.die = none)
    (same : count.toInt = s.numbers.1) : (Dice.constant count).numbers = s.numbers := by
  have sides : s.sides = 1 := by simp [Segment.sides, plain]
  apply Prod.ext
  · simpa [Dice.numbers] using same
  · simpa [Dice.numbers, numbers] using sides.symm

private theorem numbers_ofParts {s : Segment} {count : Int32} {mark : Char} {faces : List Char}
    (die : s.die = some (mark, faces)) (small : Text.value faces < UInt32.size)
    (same : count.toInt = s.numbers.1) :
    (Dice.ofParts count (UInt32.ofNat (Text.value faces))).numbers = s.numbers := by
  have exact_faces : (UInt32.ofNat (Text.value faces)).toNat = Text.value faces :=
    UInt32.toNat_ofNat_of_lt small
  have sides : s.sides = if Text.value faces = 0 then 1 else Text.value faces := by
    simp [Segment.sides, die]
  apply Prod.ext
  · simpa [Dice.numbers] using same
  · change (Dice.ofParts count _).faces.toNat = s.sides
    have positive : 0 < UInt32.ofNat (Text.value faces) ↔ Text.value faces ≠ 0 := by
      rw [UInt32.lt_iff_toNat_lt, exact_faces]
      exact Nat.pos_iff_ne_zero
    rw [sides, Dice.ofParts_faces]
    by_cases zero : Text.value faces = 0
    · rw [if_neg (by rw [positive]; exact not_not_intro zero), if_pos zero]
      rfl
    · rw [if_pos (positive.mpr zero), if_neg zero, exact_faces]

private theorem count_of_dice {s : Segment} {d : Dice} (read : s.dice = .ok d) :
    (s.count = [] → s.die.isSome = true) ∧ ∃ count : Int32, count.toInt = s.numbers.1 := by
  unfold dice at read
  cases magnitude : s.magnitude with
  | error e => simp [magnitude, bind, Except.bind] at read
  | ok n =>
    obtain ⟨some_count, _, rfl⟩ := magnitude_eq_ok_iff.mp magnitude
    refine ⟨some_count, ?_⟩
    simp only [magnitude, bind, Except.bind] at read
    rw [numbers_fst]
    cases narrowed : fit? (if s.isNegative then -(s.written : Int) else s.written) with
    | none => simp [narrowed, throw, throwThe, MonadExceptOf.throw] at read
    | some count => exact ⟨count, fit?_eq_some_iff.mp narrowed⟩

private theorem isSummand_of_dice {s : Segment} (shaped : s.Shaped) {d : Dice}
    (read : s.dice = .ok d) : s.IsSummand ∧ d.numbers = s.numbers := by
  obtain ⟨some_count, count, same⟩ := count_of_dice read
  have bounded := written_le_limit_iff.mpr ⟨count, same⟩
  rw [dice_of_count some_count same] at read
  split at read
  · next plain =>
    cases read
    have body : s.HasBody := by
      unfold HasBody
      rw [plain]
      intro empty
      simpa [plain] using some_count empty
    have sides : s.sides ≤ 4294967295 := by simp [Segment.sides, plain]
    exact ⟨⟨shaped, body, bounded, sides⟩, numbers_constant plain same⟩
  · cases read
  · next mark faces written die =>
    split at read
    · next small =>
      cases read
      have body : s.HasBody := by
        unfold HasBody
        rw [die]
        exact written
      have sides : s.sides ≤ 4294967295 := by
        have size : UInt32.size = 4294967296 := rfl
        simp only [Segment.sides, die]
        split <;> omega
      exact ⟨⟨shaped, body, bounded, sides⟩, numbers_ofParts die small same⟩
    · cases read

theorem exists_dice {s : Segment} (summand : s.IsSummand) :
    ∃ d, s.dice = .ok d ∧ d.numbers = s.numbers := by
  obtain ⟨count, same⟩ := written_le_limit_iff.mp summand.count_le
  have body := summand.body
  have faces_le := summand.faces_le
  have some_count : s.count = [] → s.die.isSome = true := by
    intro empty
    unfold HasBody at body
    split at body
    · exact absurd empty body
    · next die => simp [die]
  rw [dice_of_count some_count same]
  split
  · next plain => exact ⟨_, rfl, numbers_constant plain same⟩
  · next die => simp [HasBody, die] at body
  · next mark faces _ die =>
    have small : Text.value faces < UInt32.size := by
      have size : UInt32.size = 4294967296 := rfl
      simp only [Segment.sides, die] at faces_le
      split at faces_le <;> omega
    rw [if_pos small]
    exact ⟨_, rfl, numbers_ofParts die small same⟩

theorem dice_eq_ok_iff {s : Segment} (shaped : s.Shaped) {d : Dice} :
    s.dice = .ok d ↔ s.IsSummand ∧ d.numbers = s.numbers := by
  constructor
  · exact isSummand_of_dice shaped
  · rintro ⟨summand, same⟩
    obtain ⟨e, read, numbers⟩ := exists_dice summand
    rw [read, Dice.numbers_inj (numbers.trans same.symm)]

def behind (signs : List Char) (s : Segment) : Segment :=
  { s with signs := signs ++ s.signs }

theorem chars_behind (signs : List Char) (s : Segment) : (s.behind signs).chars = signs ++ s.chars := by
  simp [behind, chars]

theorem Shaped.behind {s : Segment} {signs : List Char} (shaped : s.Shaped)
    (all : ∀ c ∈ signs, isSign c = true) : (s.behind signs).Shaped :=
  ⟨List.forall_mem_append.mpr ⟨all, shaped.signs⟩, shaped.count, shaped.mark, shaped.faces⟩

theorem numbers_behind (signs : List Char) (s : Segment) :
    (s.behind signs).numbers = if signs.count '-' % 2 = 1 then (-s.numbers.1, s.numbers.2) else s.numbers := by
  have minus : (s.behind signs).signs.count '-' = signs.count '-' + s.signs.count '-' := List.count_append
  have written : (s.behind signs).written = s.written := rfl
  have sides : (s.behind signs).sides = s.sides := rfl
  have parity : (signs.count '-' + s.signs.count '-') % 2 = 1 ↔
      ¬ (signs.count '-' % 2 = 1 ↔ s.signs.count '-' % 2 = 1) := by omega
  unfold numbers
  rw [minus, written, sides]
  by_cases odd : signs.count '-' % 2 = 1 <;> by_cases odd' : s.signs.count '-' % 2 = 1 <;>
    simp [parity, odd, odd']

end Segment
end Grammar
end DiceAlgebra
