import DiceAlgebra.Throw

/-! Flat sums of dice. -/
namespace DiceAlgebra

/-- A sum of dice in the order written. Dice with a count of zero add nothing and are never kept. -/
structure Pool where
  entries : List Dice
  count_ne_zero : ∀ d ∈ entries, d.count ≠ 0
deriving DecidableEq

namespace Pool

@[ext] theorem ext {p q : Pool} (entries : p.entries = q.entries) : p = q := by
  cases p
  cases q
  cases entries
  rfl

def ofList (ds : List Dice) : Pool where
  entries := ds.filter (·.count ≠ 0)
  count_ne_zero := by simp

@[simp] theorem ofList_entries (p : Pool) : ofList p.entries = p :=
  ext (List.filter_eq_self.mpr (by simpa using p.count_ne_zero))

theorem entries_ofList (ds : List Dice) : (ofList ds).entries = ds.filter (·.count ≠ 0) :=
  rfl

def empty : Pool :=
  ⟨[], by simp⟩

@[simp] theorem entries_empty : empty.entries = [] :=
  rfl

def single (d : Dice) : Pool :=
  ofList [d]

theorem entries_single (d : Dice) : (single d).entries = if d.count = 0 then [] else [d] := by
  by_cases h : d.count = 0 <;> simp [single, ofList, h]

instance : Append Pool where
  append p q :=
    ⟨p.entries ++ q.entries, fun d h =>
      (List.mem_append.mp h).elim (p.count_ne_zero d) (q.count_ne_zero d)⟩

@[simp] theorem entries_append (p q : Pool) : (p ++ q).entries = p.entries ++ q.entries :=
  rfl

def push (p : Pool) (d : Dice) : Pool :=
  p ++ single d

def extend (p : Pool) (ds : List Dice) : Pool :=
  p ++ ofList ds

theorem extend_cons (p : Pool) (d : Dice) (ds : List Dice) :
    p.extend (d :: ds) = (p.push d).extend ds := by
  apply ext
  by_cases h : d.count = 0 <;> simp [extend, push, single, ofList, h]

def negated (p : Pool) : Pool where
  entries := p.entries.map Dice.negated
  count_ne_zero d h := by
    obtain ⟨e, member, rfl⟩ := List.mem_map.mp h
    exact saturatingNeg_ne_zero (p.count_ne_zero e member)

@[simp] theorem entries_negated (p : Pool) : p.negated.entries = p.entries.map Dice.negated :=
  rfl

def size (p : Pool) : Nat :=
  p.entries.length

def isEmpty (p : Pool) : Bool :=
  p.entries.isEmpty

def contains (p : Pool) (d : Dice) : Bool :=
  p.entries.contains d

/-- Looks for dice with this many faces, in any number. Faces below two ask for a constant. -/
def containsFaces (p : Pool) (faces : UInt32) : Bool :=
  p.entries.any (·.faces == (Dice.die faces).faces)

def containsAll (p q : Pool) : Bool :=
  q.entries.all p.contains

/-- A sum of constants alone needs no throw. -/
def isDeterministic (p : Pool) : Bool :=
  p.entries.all Dice.isConstant

/-- The expected total, summed from the left. The sum starts at negative zero, which is what the empty
pool averages to. -/
def average (p : Pool) : Float :=
  p.entries.foldl (fun sum d => sum + d.average) (-0.0)

def minTotal (p : Pool) : Int :=
  p.entries.foldr (fun d sum => d.minTotal + sum) 0

def maxTotal (p : Pool) : Int :=
  p.entries.foldr (fun d sum => d.maxTotal + sum) 0

/-- The lowest total, when it can be summed in 64 bits. -/
def minTotal64? (p : Pool) : Option Int :=
  sum64? (p.entries.map Dice.minTotal)

def maxTotal64? (p : Pool) : Option Int :=
  sum64? (p.entries.map Dice.maxTotal)

/-- The entries one after the other; the empty sum is the constant zero. -/
def text (p : Pool) : String :=
  if p.isEmpty then "+0" else " ".intercalate (p.entries.map Dice.text)

instance : ToString Pool := ⟨text⟩

end Pool
end DiceAlgebra
