import DiceAlgebra.Decimal.Shortest
import DiceAlgebra.Expr.Average
import DiceAlgebra.Expr.Contract
import DiceAlgebra.Grammar.Reader

/-! What the program answers to a command line. -/
namespace DiceAlgebra.CommandLine

inductive Complaint where
  | noInput
  | unreadable
  | unparsable (problems : List Grammar.Diagnostic)
  | throwing (error : EvalError)
  | calculating (error : CalcError)
deriving DecidableEq

/-- Without arguments the first line of the standard input is asked for. The seed is a text of the
environment, and `entropy` stands in for it where there is none. -/
structure Request where
  args : List String
  stdin : List UInt8
  seed : Option String
  entropy : UInt64

structure Report where
  stdout : String
  complaint : Option Complaint
deriving DecidableEq

def Report.exitCode (r : Report) : UInt32 :=
  if r.complaint.isNone then 0 else 1

def Complaint.text : Complaint → String
  | noInput => "No input given\n"
  | unreadable => "Unable to read input: stream did not contain valid UTF-8\n"
  | unparsable ds => String.join (ds.map fun d =>
      "unable to parse dice term at " ++ Text.numeral d.start ++ ".." ++ Text.numeral d.stop ++ ": " ++
        d.message ++ "\n")
  | throwing e => "Evaluation error: " ++ e.message ++ "\n"
  | calculating e => "Calculation error: " ++ e.message ++ "\n"

def listLimit : Nat := 20

def prompt : String := "Enter dice term: "

/-- The first line, without its end. A carriage return belongs to the end only before a line feed. -/
def firstLine (stdin : List UInt8) : Except Complaint String :=
  if stdin = [] then
    .error .noInput
  else
    let line := stdin.takeWhile (· ≠ 10)
    let terminated := line.length < stdin.length
    let line := if terminated ∧ line.getLast? = some 13 then line.dropLast else line
    (String.fromUTF8? ⟨line.toArray⟩).elim (.error .unreadable) .ok

def input (args : List String) (stdin : List UInt8) : Except Complaint String :=
  if args = [] then firstLine stdin else .ok (" ".intercalate args)

/-- A seed is a number of 64 bits with blanks around it; anything else is ignored. -/
def roller (seed : Option String) (entropy : UInt64) : Source :=
  match seed.bind fun text => Text.natBelow? UInt64.size (Text.trim text).toList with
  | some n => .seeded (UInt64.ofNat n)
  | none => .seeded entropy

def lines (ls : List String) : String :=
  String.join (ls.map (· ++ "\n"))

def summary (e : Expr) : List String :=
  ["Parsed: " ++ e.text, "Contracted: " ++ e.contract.text,
    "Average: " ++ (Expr.average? e.contract).elim "unknown" Decimal.text]

def reportOn (e : Expr) (roller : Source) : Report :=
  match (Expr.roll References.none e).run roller with
  | .error error _ => ⟨lines (summary e), some (.throwing error)⟩
  | .ok outcome _ =>
    let told := summary e ++ ["", "Rolled: " ++ outcome.text (some listLimit)]
    match outcome.value with
    | .error error => ⟨lines told, some (.calculating error)⟩
    | .ok total => ⟨lines (told ++ ["Total: " ++ Text.integer total.toInt]), none⟩

/-- The answer to a text. Only its first line repeats the text as it was given. -/
def answer (text : String) (roller : Source) : Report :=
  let report : Report :=
    match Expr.parse text with
    | .error ds => ⟨"", some (.unparsable ds)⟩
    | .ok e => reportOn e roller
  { report with stdout := lines ["Input: " ++ text] ++ report.stdout }

def respond (r : Request) : Report :=
  match input r.args r.stdin with
  | .error complaint => ⟨"", some complaint⟩
  | .ok text => answer text (roller r.seed r.entropy)

def run (r : Request) : Report :=
  let report := respond r
  { report with stdout := (if r.args = [] then prompt else "") ++ report.stdout }

end DiceAlgebra.CommandLine
