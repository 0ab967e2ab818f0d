import DiceAlgebra.Pool.Basic

/-! Contraction of a flat sum: at most one entry for each number of faces, more faces first. -/
namespace DiceAlgebra.Pool

/-- Adds dice to the group with their number of faces; groups stand in descending order of faces. -/
def insertGroup (groups : List Dice) (d : Dice) : List Dice :=
  match groups with
  | [] => [d]
  | g :: rest =>
    if d.faces < g.faces then
      g :: insertGroup rest d
    else if g.faces = d.faces then
      { g with count := saturatingAdd g.count d.count } :: rest
    else
      d :: g :: rest

/-- Merges the entries of each number of faces, adding their counts in the order written and clamping
each partial sum. What cancels out is dropped. -/
def contract (p : Pool) : Pool :=
  ofList (p.entries.foldl insertGroup [])

/-- Each number of faces occurs at most once, and more faces come first. -/
def isContracted (p : Pool) : Bool :=
  descending p.entries
where
  descending : List Dice → Bool
    | a :: b :: rest => b.faces < a.faces && descending (b :: rest)
    | _ => true

def same (p q : Pool) : Bool :=
  p.contract = q.contract

end DiceAlgebra.Pool
