import DiceAlgebra.Expr.Basic
import DiceAlgebra.Grammar.Diagnostic
import DiceAlgebra.Text.Blank

/-! Reading written dice. What a form takes at each stage of a segment is one table, `Form.next`. A text is
cut by it into segments, up to the first character that fits nowhere, and the same table tells what could
have stood there. The diagnostics are then read off the cut, and the text is accepted if there are none. -/
namespace DiceAlgebra.Grammar

/-- What a text may be: one segment without signs, with at least one, with any number of them, or several
segments of which all but the first have signs. -/
inductive Form where
  | unsigned
  | signed
  | single
  | sum
deriving DecidableEq

/-- What a text may go on with, in the order in which it is told. After digits or a die mark a further
segment may start, but only in a sum. -/
def Form.next (form : Form) : Stage → List Kind
  | .start =>
    match form with
    | .unsigned => [.digit, .mark]
    | .signed => [.sign]
    | .single | .sum => [.digit, .mark, .sign]
  | .signs => [.sign, .digit, .mark]
  | .count => [.digit, .mark] ++ if form = .sum then [.sign] else []
  | .faces => [.digit] ++ if form = .sum then [.sign] else []

def expected (form : Form) (stage : Stage) : List Char :=
  (form.next stage).flatMap Kind.chars

/-- Signs stand in front of a segment, so behind anything else they begin the next one. -/
def Stage.begins : Stage → Kind → Bool
  | .count, .sign | .faces, .sign => true
  | _, _ => false

/-- The part of a text that fits, segment by segment, and what is left of it. The first segment is always
there, though it may be empty. -/
structure Cut where
  first : Segment
  more : List Segment
  rest : List Char
deriving DecidableEq

def Cut.behind (s : Segment) (later : Cut) : Cut :=
  ⟨s, later.first :: later.more, later.rest⟩

/-- Goes on with a segment for as long as the form takes the next character. -/
def scan (form : Form) (s : Segment) : List Char → Cut
  | [] => ⟨s, [], []⟩
  | c :: cs =>
    match (form.next s.stage).find? (c ∈ ·.chars) with
    | none => ⟨s, [], c :: cs⟩
    | some kind =>
      if s.stage.begins kind then
        .behind s (scan form (Segment.empty.add c kind) cs)
      else
        scan form (s.add c kind) cs

def cut (form : Form) (text : List Char) : Cut :=
  scan form .empty text

namespace Cut

/-- The segments that stand for no dice, the first of them starting at this byte. -/
def faultsFrom (start : Nat) : List Segment → List Diagnostic
  | [] => []
  | s :: rest =>
    match s.dice with
    | .ok _ => faultsFrom (start + s.length) rest
    | .error e => ⟨start, start + s.length, .segment e⟩ :: faultsFrom (start + s.length) rest

def segments (cut : Cut) : List Segment :=
  cut.first :: cut.more

def length (cut : Cut) : Nat :=
  (cut.segments.flatMap Segment.chars).length

def stage (cut : Cut) : Stage :=
  (cut.more.getLastD cut.first).stage

def stuck (form : Form) (cut : Cut) : List Diagnostic :=
  match cut.rest with
  | [] => []
  | c :: _ => [⟨cut.length, cut.length + c.utf8Size, .found c (expected form cut.stage)⟩]

def diagnostics (form : Form) (cut : Cut) : List Diagnostic :=
  faultsFrom 0 cut.segments ++ cut.stuck form

end Cut

/-- The complaint about a text that has to start with a sign and does not. -/
def signMissing (wanted : String) : List Char → Diagnostic
  | [] => ⟨0, 0, .foundEnd wanted⟩
  | c :: _ => ⟨0, c.utf8Size, .found c signChars⟩

/-- The diagnostics of a text. Without the sign that it has to start with, nothing else is looked at. -/
def diagnose (form : Form) (text : List Char) : List Diagnostic :=
  if form = .signed ∧ (text.head?.all fun c => !isSign c) then
    [signMissing "signed dice or number" text]
  else
    (cut form text).diagnostics form

def readDice (form : Form) (text : String) : Except (List Diagnostic) Dice :=
  match diagnose form text.toList, (cut form text.toList).first.dice with
  | [], .ok d => .ok d
  | ds, _ => .error ds

def readPool (text : String) : Except (List Diagnostic) Pool :=
  match diagnose .sum text.toList with
  | [] => .ok (.ofList ((cut .sum text.toList).segments.filterMap (·.dice.toOption)))
  | ds => .error ds

def readSign (text : String) : Except (List Diagnostic) Bool :=
  let signs := text.toList.takeWhile isSign
  match text.toList.dropWhile isSign with
  | [] =>
    if signs = [] then
      .error [signMissing "sign" []]
    else
      .ok (signs.count '-' % 2 = 1)
  | c :: _ => .error [⟨signs.length, signs.length + c.utf8Size, .found c signChars⟩]

end DiceAlgebra.Grammar

namespace DiceAlgebra

/-- Reads dice of one kind. Blanks count for nothing, even inside a number. -/
def Dice.parse (text : String) : Except (List Grammar.Diagnostic) Dice :=
  Grammar.readDice .single (Text.squeeze text)

/-- Reads a sum of dice, keeping the entries in the order written. -/
def Pool.parse (text : String) : Except (List Grammar.Diagnostic) Pool :=
  Grammar.readPool (Text.squeeze text)

def Expr.parse (text : String) : Except (List Grammar.Diagnostic) Expr :=
  (Pool.parse text).map Expr.pool

end DiceAlgebra
