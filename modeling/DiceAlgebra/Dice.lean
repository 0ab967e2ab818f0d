import DiceAlgebra.Arithmetic
import DiceAlgebra.Text.Numeral

/-! Dice of one kind, their order and their text. -/
namespace DiceAlgebra

/-- A signed number of dice with the same number of faces. A die with one face always shows 1, so such
dice stand for the constant `count`. -/
structure Dice where
  count : Int32
  faces : UInt32
  faces_pos : 0 < faces
deriving DecidableEq

namespace Dice

/-- A die without faces counts as one with a single face. -/
def ofParts (count : Int32) (faces : UInt32) : Dice :=
  if h : 0 < faces then ⟨count, faces, h⟩ else ⟨count, 1, by decide⟩

def die (faces : UInt32) : Dice :=
  ofParts 1 faces

def constant (value : Int32) : Dice :=
  ofParts value 1

/-- The sign may stand on either side and ends up on the count. A count of `2 ^ 31`, which only turns up
when both sides are negative, is clamped. -/
def ofSigned (count faces : Int32) : Dice :=
  let magnitude : Int := count.toInt.natAbs
  ofParts (saturate (if (count < 0) = (faces < 0) then magnitude else -magnitude))
    (UInt32.ofNat faces.toInt.natAbs)

/-- One die with twenty faces, unless said otherwise. -/
instance : Inhabited Dice := ⟨die 20⟩

@[simp] theorem ofParts_count (count : Int32) (faces : UInt32) :
    (ofParts count faces).count = count := by
  unfold ofParts
  split <;> rfl

theorem ofParts_faces (count : Int32) (faces : UInt32) :
    (ofParts count faces).faces = if 0 < faces then faces else 1 := by
  unfold ofParts
  split <;> rfl

@[simp] theorem ofParts_count_faces (d : Dice) : ofParts d.count d.faces = d := by
  rw [ofParts, dif_pos d.faces_pos]

theorem one_le_toNat_faces (d : Dice) : 1 ≤ d.faces.toNat :=
  UInt32.lt_iff_toNat_lt.mp d.faces_pos

@[simp] theorem die_count (faces : UInt32) : (die faces).count = 1 :=
  ofParts_count 1 faces

@[simp] theorem constant_count (value : Int32) : (constant value).count = value :=
  ofParts_count value 1

@[simp] theorem constant_faces (value : Int32) : (constant value).faces = 1 :=
  rfl

@[ext] theorem ext {a b : Dice} (count : a.count = b.count) (faces : a.faces = b.faces) : a = b := by
  cases a
  cases b
  cases count
  cases faces
  rfl

def isConstant (d : Dice) : Bool :=
  d.faces == 1

theorem isConstant_iff {d : Dice} : d.isConstant = true ↔ d.faces = 1 := by
  simp [isConstant]

def isNegative (d : Dice) : Bool :=
  d.count < 0

def magnitude (d : Dice) : Nat :=
  d.count.toInt.natAbs

/-- The same dice on the other side of zero; the lowest count, which has no counterpart, goes to the
highest one. -/
def negated (d : Dice) : Dice :=
  { d with count := saturatingNeg d.count }

@[simp] theorem negated_count (d : Dice) : d.negated.count = saturatingNeg d.count :=
  rfl

@[simp] theorem negated_faces (d : Dice) : d.negated.faces = d.faces :=
  rfl

/-- The expected total `|count| * (1 + faces) / 2` under the sign of the count, rounded after each step
from left to right. -/
def average (d : Dice) : Float :=
  Float.ofNat d.magnitude * (1.0 + d.faces.toFloat) / 2.0 * (if d.isNegative then -1.0 else 1.0)

/-- The lowest total: every die shows 1, or its highest face if the dice count negatively. -/
def minTotal (d : Dice) : Int :=
  if d.isNegative then d.count.toInt * d.faces.toNat else d.count.toInt

def maxTotal (d : Dice) : Int :=
  if d.isNegative then d.count.toInt else d.count.toInt * d.faces.toNat

/-- More faces come first, so constants come last; of equal faces the higher count comes first. -/
instance : Ord Dice where
  compare a b := (compare b.faces a.faces).then (compare b.count a.count)

def sort (ds : List Dice) : List Dice :=
  ds.mergeSort fun a b => (compare a b).isLE

/-- A signed count, then `D` and the faces unless the dice are a constant. -/
def text (d : Dice) : String :=
  Text.signed d.count.toInt ++ if d.isConstant then "" else "D" ++ Text.numeral d.faces.toNat

instance : ToString Dice := ⟨text⟩

end Dice
end DiceAlgebra
