import DiceAlgebra.Dice
import DiceAlgebra.Text.Numeral

/-! One summand of a written sum: how it grows with each character, and the dice it stands for. -/
namespace DiceAlgebra.Grammar

def signChars : List Char := ['+', '-']

def digitChars : List Char := ['0', '1', '2', '3', '4', '5', '6', '7', '8', '9']

def dieMarks : List Char := ['d', 'D']

/-- The characters that a reader tells apart. -/
inductive Kind where
  | sign
  | digit
  | mark
deriving DecidableEq

def Kind.chars : Kind → List Char
  | .sign => signChars
  | .digit => digitChars
  | .mark => dieMarks

def isSign (c : Char) : Bool :=
  c ∈ signChars

/-- The pieces of a summand as written: signs, the digits of a count, and a die mark with the digits of its
faces. Any of them may be missing. -/
structure Segment where
  signs : List Char
  count : List Char
  die : Option (Char × List Char)
deriving DecidableEq

inductive Stage where
  | start
  | signs
  | count
  | faces
deriving DecidableEq

namespace Segment

def empty : Segment :=
  ⟨[], [], none⟩

def chars (s : Segment) : List Char :=
  s.signs ++ s.count ++ s.die.elim [] fun (mark, faces) => mark :: faces

/-- Only ASCII characters belong to segments, so this is their length in bytes too. -/
def length (s : Segment) : Nat :=
  s.chars.length

def stage (s : Segment) : Stage :=
  if s.die.isSome then .faces
  else if s.count ≠ [] then .count
  else if s.signs ≠ [] then .signs
  else .start

/-- The segment with one more character. Digits behind a die mark are those of its faces. -/
def add (s : Segment) (c : Char) : Kind → Segment
  | .sign => { s with signs := s.signs ++ [c] }
  | .digit =>
    match s.die with
    | none => { s with count := s.count ++ [c] }
    | some (mark, faces) => { s with die := some (mark, faces ++ [c]) }
  | .mark => { s with die := some (c, []) }

/-- An odd number of minus signs makes the summand negative. -/
def isNegative (s : Segment) : Bool :=
  s.signs.count '-' % 2 = 1

end Segment

inductive SegmentError where
  | missing
  | countTooLarge
  | countOutOfRange (count : Int)
  | facesMissing
  | facesTooLarge
deriving DecidableEq

def SegmentError.message : SegmentError → String
  | missing => "expected a number or dice"
  | countTooLarge => "dice count: number too large to fit in target type"
  | countOutOfRange count =>
    "dice count " ++ Text.integer count ++ ": number too " ++ (if count < 0 then "small" else "large") ++
      " to fit in target type"
  | facesMissing => "cannot specify a die with an unspecified number of faces"
  | facesTooLarge => "dice faces: number too large to fit in target type"

namespace Segment

/-- The number of dice before signs: one, if only a die mark is written. -/
def magnitude (s : Segment) : Except SegmentError Nat :=
  if s.count = [] then
    if s.die.isSome then .ok 1 else .error .missing
  else if Text.value s.count < UInt32.size then
    .ok (Text.value s.count)
  else
    .error .countTooLarge

/-- The dice of a segment, or the first thing that is wrong with it. The sign is taken before the count is
narrowed, so the lowest count can be written. -/
def dice (s : Segment) : Except SegmentError Dice := do
  let magnitude ← s.magnitude
  let total : Int := if s.isNegative then -magnitude else magnitude
  let some count := fit? total | throw (.countOutOfRange total)
  match s.die with
  | none => return .constant count
  | some (_, []) => throw .facesMissing
  | some (_, faces) =>
    if Text.value faces < UInt32.size then
      return .ofParts count (UInt32.ofNat (Text.value faces))
    else
      throw .facesTooLarge

end Segment
end DiceAlgebra.Grammar
