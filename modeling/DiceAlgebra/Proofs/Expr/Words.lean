import DiceAlgebra.Proofs.Expr.ShownValue
import DiceAlgebra.Proofs.Pool.RoundTrip

/-! The words that leaves are written as, and the numbers these words stand for. A word tells by itself
whether it is dice or a name, and the numbers of all words of a leaf add up to its total. -/
namespace DiceAlgebra

namespace Grammar.Segment

def ofDie (faces : UInt32) : Segment :=
  ⟨[], [], some ('d', Text.digits faces.toNat)⟩

/-- The segment of a number, which has a sign below zero only. -/
def ofInteger (value : Int32) : Segment :=
  ⟨if value.toInt < 0 then ['-'] else [], Text.digits value.toInt.natAbs, none⟩

theorem toList_die (faces : UInt32) :
    ("d" ++ Text.numeral faces.toNat).toList = (ofDie faces).chars := by
  simp [Text.numeral, ofDie, chars]

theorem toList_integer (value : Int32) :
    (Text.integer value.toInt).toList = (ofInteger value).chars := by
  unfold Text.integer Text.numeral ofInteger chars
  by_cases negative : value.toInt < 0 <;> simp [negative]

theorem numbers_ofDie (faces : UInt32) : (ofDie faces).numbers = (Dice.die faces).numbers := by
  have positive : 0 < faces ↔ faces.toNat ≠ 0 := by
    rw [UInt32.lt_iff_toNat_lt]
    exact Nat.pos_iff_ne_zero
  apply Prod.ext
  · rw [Dice.numbers, Dice.die_count]
    rfl
  · change (if Text.value (Text.digits faces.toNat) = 0 then 1 else Text.value (Text.digits faces.toNat)) =
      (Dice.ofParts 1 faces).faces.toNat
    rw [Text.value_digits, Dice.ofParts_faces]
    by_cases zero : faces.toNat = 0
    · rw [if_pos zero, if_neg (by rw [positive]; exact not_not_intro zero)]
      rfl
    · rw [if_neg zero, if_pos (positive.mpr zero)]

theorem numbers_ofInteger (value : Int32) :
    (ofInteger value).numbers = (Dice.constant value).numbers := by
  have written : (ofInteger value).written = value.toInt.natAbs := by
    simp [Segment.written, ofInteger, Text.digits_ne_nil]
  have minus : (ofInteger value).signs.count '-' = if value.toInt < 0 then 1 else 0 := by
    unfold ofInteger
    split <;> rfl
  apply Prod.ext
  · unfold numbers
    rw [written, minus]
    change (if (if value.toInt < 0 then 1 else 0) % 2 = 1 then _ else _) = value.toInt
    split <;> split at * <;> omega
  · rfl

theorem isSummand_ofDie (faces : UInt32) : (ofDie faces).IsSummand := by
  have shaped : (ofDie faces).Shaped := by
    refine ⟨by simp [ofDie], by simp [ofDie], ?_, ?_⟩
    · intro die h
      cases h
      rfl
    · intro die h c member
      cases h
      exact Text.isDigit_of_mem_digits member
  exact isSummand_of_numbers shaped (Text.digits_ne_nil _) (numbers_ofDie faces)

theorem isSummand_ofInteger (value : Int32) : (ofInteger value).IsSummand := by
  have shaped : (ofInteger value).Shaped := by
    refine ⟨?_, fun c h => Text.isDigit_of_mem_digits h, by simp [ofInteger], by simp [ofInteger]⟩
    intro c h
    change c ∈ (if value.toInt < 0 then ['-'] else []) at h
    split at h
    · rw [List.mem_singleton.mp h]
      rfl
    · cases h
  exact isSummand_of_numbers shaped (Text.digits_ne_nil _) (numbers_ofInteger value)

theorem exists_isDigit {s : Segment} (summand : s.IsSummand) :
    ∃ c ∈ s.chars, Text.isDigit c = true := by
  have body := summand.body
  unfold HasBody at body
  unfold chars
  cases die : s.die with
  | none =>
    rw [die] at body
    obtain ⟨c, member⟩ := List.exists_mem_of_ne_nil _ body
    exact ⟨c, by simp [member], summand.count c member⟩
  | some die' =>
    rw [die] at body
    obtain ⟨c, member⟩ := List.exists_mem_of_ne_nil _ body
    exact ⟨c, by simp [member], summand.faces die' die c member⟩

end Grammar.Segment

open Grammar

def isPlain (c : Char) : Bool :=
  c.isAlphanum || isSign c

/-- A run of letters, digits and signs that is more than signs. -/
structure IsWord (word : List Char) : Prop where
  plain : ∀ c ∈ word, isPlain c = true
  solid : ∃ c ∈ word, c.isAlphanum = true

theorem isPlain_of_isAlphanum {c : Char} (h : c.isAlphanum = true) : isPlain c = true := by
  rw [isPlain, h, Bool.true_or]

theorem Grammar.Segment.isWord_chars {s : Segment} (summand : s.IsSummand) : IsWord s.chars := by
  have of_digit : ∀ c, Text.isDigit c = true → c.isAlphanum = true := fun c h => by
    rw [Char.isAlphanum, show c.isDigit = true from h, Bool.or_true]
  refine ⟨?_, ?_⟩
  · intro c h
    rcases summand.kind c h with sign | digit | mark
    · rw [isPlain, sign, Bool.or_true]
    · exact isPlain_of_isAlphanum (of_digit c digit)
    · rcases isDieMark_iff.mp mark with rfl | rfl <;> decide
  · obtain ⟨c, member, digit⟩ := exists_isDigit summand
    exact ⟨c, member, of_digit c digit⟩

namespace Expr

variable {face : UInt32 → UInt32} {refs : References}

/-- The number that a word stands for. Dice are read off it, and anything else is looked up. -/
def reading (face : UInt32 → UInt32) (refs : References) (word : List Char) : Int :=
  (Dice.parse (String.ofList word)).toOption.elim ((refs (String.ofList word)).getD 0).toInt
    fun d => d.count.toInt * faceValue face d.faces

theorem reading_chars {s : Segment} {d : Dice} (summand : s.IsSummand) (same : s.numbers = d.numbers) :
    reading face refs s.chars = d.count.toInt * faceValue face d.faces := by
  have parsed : Dice.parse (String.ofList s.chars) = .ok d := by
    unfold Dice.parse
    rw [readDice_eq_ok_iff]
    refine ⟨s, ?_, summand, same.symm⟩
    rw [Text.toList_squeeze, String.toList_ofList, Segment.filter_chars summand.toShaped]
  rw [reading, parsed]
  rfl

/-- Dice cannot be written without a digit, so a name is none. -/
theorem reading_name {name : String} {v : Int32} (letters : ∀ c ∈ name.toList, c.isAlpha = true)
    (known : refs name = some v) : reading face refs name.toList = v.toInt := by
  rw [reading, String.ofList_toList]
  cases parsed : Dice.parse name with
  | ok d =>
    unfold Dice.parse at parsed
    obtain ⟨s, squeezed, summand, _⟩ := readDice_eq_ok_iff.mp parsed
    obtain ⟨c, member, digit⟩ := Segment.exists_isDigit summand
    rw [← squeezed, Text.toList_squeeze] at member
    have letter := letters c (List.mem_filter.mp member).1
    exfalso
    have range : 48 ≤ c.toNat ∧ c.toNat ≤ 57 := Char.isDigit_iff_toNat.mp digit
    change (decide (65 ≤ c.val ∧ c.val ≤ 90) || (decide (97 ≤ c.val) && decide (c.val ≤ 122))) = true
      at letter
    simp only [Bool.or_eq_true, Bool.and_eq_true, decide_eq_true_eq, UInt32.le_iff_toNat_le] at letter
    change (65 ≤ c.toNat ∧ c.toNat ≤ 90) ∨ (97 ≤ c.toNat ∧ c.toNat ≤ 122) at letter
    omega
  | error e =>
    rw [known]
    rfl

namespace Leaf

/-- A reference has a name, which consists of letters. -/
def NamedByLetters : Leaf → Prop
  | ref name => name ≠ "" ∧ ∀ c ∈ name.toList, c.isAlpha = true
  | _ => True

def words : Leaf → List (List Char)
  | die faces => [(Segment.ofDie faces).chars]
  | num value => [(Segment.ofInteger value).chars]
  | ref name => [name.toList]
  | pool p =>
    if p.entries = [] then [(Segment.ofDice (.constant 0)).chars]
    else (p.entries.map Segment.ofDice).map Segment.chars

theorem toList_text (l : Leaf) : l.text.toList = [' '].intercalate l.words := by
  cases l with
  | die faces => simpa [text, words] using Segment.toList_die faces
  | num value => simpa [text, words] using Segment.toList_integer value
  | ref name => simp [text, words]
  | pool p =>
    simp only [text, words]
    split
    · next none_left =>
      have empty : p = .empty := Pool.ext none_left
      rw [empty]
      decide
    · next some_entry => exact Pool.toList_text some_entry

theorem isWord_of_mem_words {l : Leaf} (named : l.NamedByLetters) {word : List Char}
    (h : word ∈ l.words) : IsWord word := by
  cases l with
  | die faces =>
    rw [List.mem_singleton.mp h]
    exact Segment.isWord_chars (Segment.isSummand_ofDie faces)
  | num value =>
    rw [List.mem_singleton.mp h]
    exact Segment.isWord_chars (Segment.isSummand_ofInteger value)
  | ref name =>
    rw [List.mem_singleton.mp h]
    have letter : ∀ c ∈ name.toList, c.isAlphanum = true := fun c member => by
      rw [Char.isAlphanum, named.2 c member, Bool.true_or]
    obtain ⟨c, member⟩ := List.exists_mem_of_ne_nil name.toList (by simpa using named.1)
    exact ⟨fun c member => isPlain_of_isAlphanum (letter c member), c, member, letter c member⟩
  | pool p =>
    simp only [words] at h
    split at h
    · rw [List.mem_singleton.mp h]
      exact Segment.isWord_chars (Segment.isSummand_ofDice _)
    · obtain ⟨s, member, rfl⟩ := List.mem_map.mp h
      obtain ⟨d, _, rfl⟩ := List.mem_map.mp member
      exact Segment.isWord_chars (Segment.isSummand_ofDice d)

theorem words_ne_nil (l : Leaf) : l.words ≠ [] := by
  cases l with
  | die faces => simp [words]
  | num value => simp [words]
  | ref name => simp [words]
  | pool p =>
    simp only [words]
    split
    · simp
    · next some_entry => simpa using some_entry

theorem sum_reading_words {l : Leaf} (named : l.NamedByLetters) {v : Int32}
    (value : shownValue face refs (.leaf l) = some v) :
    l.words.foldr (fun word sum => reading face refs word + sum) 0 = v.toInt := by
  rcases shownValue_leaf.mp value with ⟨o, shown, total⟩
  cases l with
  | die faces =>
    rw [toInt_value_of_shown (by simp) shown total]
    simp [words, dice, reading_chars (Segment.isSummand_ofDie faces) (Segment.numbers_ofDie faces)]
  | num n =>
    rw [toInt_value_of_shown (by simp) shown total]
    simp [words, dice, reading_chars (Segment.isSummand_ofInteger n) (Segment.numbers_ofInteger n)]
  | ref name =>
    rcases Option.map_eq_some_iff.mp shown with ⟨w, known, rfl⟩
    cases total
    simp [words, reading_name named.2 known]
  | pool p =>
    rw [toInt_value_of_shown (by simp) shown total]
    simp only [words, dice]
    split
    · next none_left =>
      rw [none_left]
      simp [reading_chars (Segment.isSummand_ofDice _) (Segment.numbers_ofDice _)]
    · have each : ∀ d : Dice, reading face refs (Segment.ofDice d).chars =
          d.count.toInt * faceValue face d.faces := fun d =>
        reading_chars (Segment.isSummand_ofDice d) (Segment.numbers_ofDice d)
      simp only [tally, List.foldr_map, each]

end Leaf
end Expr
end DiceAlgebra
