import DiceAlgebra.Proofs.Expr.Tokens
import DiceAlgebra.Proofs.Formula.Regroup
import DiceAlgebra.Proofs.Operator.Exact

/-! A calculator that reads tokens from left to right. It has no tree to go by: an operation waits on a
stack for its right operand, and is carried out once the next one to come holds no tighter. What it makes of
an expression is the total, provided that the expression hides no quotient. -/
namespace DiceAlgebra

/-- What waits for a number that is still to be read. -/
inductive Pending where
  | operation (left : Int) (op : BinaryOp)
  | call (name : List Char)
  | callSecond (name : List Char) (first : Int)

/-- The stack and the number read last, if any has been read since something was put on the stack. -/
structure Calculator where
  stack : List Pending
  value : Option Int

namespace Calculator

/-- Carries out the operations that hold at least this tightly. -/
def reduce (p : Precedence) : List Pending → Int → List Pending × Int
  | .operation left op :: stack, x =>
    if op.precedence < p then (.operation left op :: stack, x) else reduce p stack (op.exact left x)
  | stack, x => (stack, x)

/-- The stack once `x` is the left operand of this operation. -/
def pending (op : BinaryOp) (stack : List Pending) (x : Int) : List Pending :=
  .operation (reduce op.precedence stack x).2 op :: (reduce op.precedence stack x).1

def push (op : BinaryOp) (c : Calculator) : Calculator :=
  c.value.elim c fun x => ⟨pending op c.stack x, none⟩

/-- A call with a single argument. Without a name, it is a mere group. -/
def call (name : List Char) (x : Int) : Int :=
  ([UnaryOp.abs, .rolled].find? (·.name.toList = name)).elim x (·.exact x)

def callBoth (name : List Char) (x y : Int) : Int :=
  ([BinaryOp.min, .max].find? (·.spelling = .call (String.ofList name))).elim 0 (·.exact x y)

/-- The number up to the parenthesis opened last, and what is below it. -/
def finish (c : Calculator) : List Pending × Int :=
  reduce .additive c.stack (c.value.getD 0)

/-- Words that follow each other add up. -/
def step (face : UInt32 → UInt32) (refs : References) (c : Calculator) : Token → Calculator
  | .word text => ⟨(c.push .sum).stack, some (Expr.reading face refs text)⟩
  | .symbol op => c.push op
  | .opening name => ⟨.call name :: c.stack, none⟩
  | .comma =>
    match c.finish with
    | (.call name :: stack, x) => ⟨.callSecond name x :: stack, none⟩
    | _ => c
  | .closing =>
    match c.finish with
    | (.call name :: stack, x) => ⟨stack, some (call name x)⟩
    | (.callSecond name x :: stack, y) => ⟨stack, some (callBoth name x y)⟩
    | _ => c

def read (face : UInt32 → UInt32) (refs : References) (c : Calculator) (tokens : List Token) :
    Calculator :=
  tokens.foldl (step face refs) c

section Reduce

theorem lt_of_lt_of_not_lt {a p q : Precedence} (below : a < q) (le : ¬ p < q) : a < p := by
  revert below le
  cases a <;> cases p <;> cases q <;> decide

theorem not_lt_additive (p : Precedence) : ¬ p < .additive := by
  cases p <;> decide

/-- The operation on top, if there is one, holds less tightly. -/
def Settled (p : Precedence) : List Pending → Prop
  | .operation _ op :: _ => op.precedence < p
  | _ => True

theorem reduce_of_settled {p : Precedence} {stack : List Pending} (settled : Settled p stack) (x : Int) :
    reduce p stack x = (stack, x) := by
  unfold reduce
  split
  · exact if_pos settled
  · rfl

theorem settled_reduce (p : Precedence) (stack : List Pending) (x : Int) :
    Settled p (reduce p stack x).1 := by
  induction stack generalizing x with
  | nil => trivial
  | cons top stack ih =>
    cases top with
    | operation left op =>
      unfold reduce
      split
      · assumption
      · exact ih _
    | call name => trivial
    | callSecond name first => trivial

theorem settled_of_not_lt {p q : Precedence} {stack : List Pending} (settled : Settled q stack)
    (le : ¬ p < q) : Settled p stack := by
  unfold Settled at settled ⊢
  split
  · exact lt_of_lt_of_not_lt settled le
  · trivial

theorem reduce_reduce {p q : Precedence} (le : ¬ p < q) (stack : List Pending) (x : Int) :
    reduce q (reduce p stack x).1 (reduce p stack x).2 = reduce q stack x := by
  induction stack generalizing x with
  | nil => rfl
  | cons top stack ih =>
    cases top with
    | operation left op =>
      by_cases below : op.precedence < p
      · rw [@reduce_of_settled p (.operation left op :: stack) below x]
      · have below_q : ¬ op.precedence < q := fun h => below (lt_of_lt_of_not_lt h le)
        rw [reduce, if_neg below, ih, reduce, if_neg below_q]
    | call name => rfl
    | callSecond name first => rfl

end Reduce

/-- What the stack makes of an operation, it makes of its left operand first. -/
def Carries (stack : List Pending) (op : BinaryOp) : Prop :=
  ∀ x y, reduce op.precedence stack (op.exact x y) =
    ((reduce op.precedence stack x).1, op.exact (reduce op.precedence stack x).2 y)

theorem carries_of_settled {stack : List Pending} {op : BinaryOp} (settled : Settled op.precedence stack) :
    Carries stack op := by
  intro x y
  rw [reduce_of_settled settled, reduce_of_settled settled]

theorem carries_operation {base : List Pending} {left : Int} {op root : BinaryOp}
    (settled : Settled op.precedence base) (same : root.precedence = op.precedence)
    (associative : ∀ x y, op.exact left (root.exact x y) = root.exact (op.exact left x) y) :
    Carries (.operation left op :: base) root := by
  have top : ∀ z, reduce root.precedence (.operation left op :: base) z = (base, op.exact left z) := by
    intro z
    have tight : ¬ op.precedence < op.precedence := by cases op <;> decide
    rw [same, reduce, if_neg tight, reduce_of_settled settled]
  intro x y
  rw [top, top, associative]

section Reads

variable {face : UInt32 → UInt32} {refs : References} {p : Precedence} {stack : List Pending} {x : Int}
  {c : Calculator}

/-- The calculator has read `x` on top of the stack, and maybe carried out operations on the stack that hold
at least as tightly as what was read. -/
def Reads (p : Precedence) (stack : List Pending) (x : Int) (c : Calculator) : Prop :=
  ∃ y, c.value = some y ∧ reduce p c.stack y = reduce p stack x

theorem reads_value : Reads p stack x ⟨stack, some x⟩ :=
  ⟨x, rfl, rfl⟩

theorem reads_of_not_lt {q : Precedence} (le : ¬ p < q) (reads : Reads p stack x c) :
    Reads q stack x c := by
  rcases reads with ⟨y, value, same⟩
  refine ⟨y, value, ?_⟩
  rw [← reduce_reduce le, same, reduce_reduce le]

theorem push_of_reads {op : BinaryOp} (reads : Reads op.precedence stack x c) :
    c.push op = ⟨pending op stack x, none⟩ := by
  rcases reads with ⟨y, value, same⟩
  rw [push, value, Option.elim_some, pending, same, pending]

theorem reads_operation {op : BinaryOp} {y : Int} (carries : Carries stack op)
    (reads : Reads op.precedence (pending op stack x) y c) :
    Reads op.precedence stack (op.exact x y) c := by
  rcases reads with ⟨z, value, same⟩
  have tight : ¬ op.precedence < op.precedence := by cases op <;> decide
  refine ⟨z, value, ?_⟩
  rw [same, pending, reduce, if_neg tight, reduce_of_settled (settled_reduce ..), carries]

theorem finish_of_reads (settled : Settled .additive stack) (reads : Reads p stack x c) :
    c.finish = (stack, x) := by
  rcases reads_of_not_lt (not_lt_additive p) reads with ⟨y, value, same⟩
  rw [finish, value, Option.getD_some, same, reduce_of_settled settled]

theorem step_closing_call {name : List Char} (reads : Reads p (.call name :: stack) x c) :
    c.step face refs .closing = ⟨stack, some (call name x)⟩ := by
  rw [step, finish_of_reads (by trivial) reads]

theorem step_comma {name : List Char} (reads : Reads p (.call name :: stack) x c) :
    c.step face refs .comma = ⟨.callSecond name x :: stack, none⟩ := by
  rw [step, finish_of_reads (by trivial) reads]

theorem step_closing_second {name : List Char} {y : Int}
    (reads : Reads p (.callSecond name x :: stack) y c) :
    c.step face refs .closing = ⟨stack, some (callBoth name x y)⟩ := by
  rw [step, finish_of_reads (by trivial) reads]

end Reads

theorem call_nil (x : Int) : call [] x = x := by
  simp [call, UnaryOp.name]

theorem call_name (op : UnaryOp) (x : Int) : call op.name.toList x = op.exact x := by
  cases op <;> simp [call, UnaryOp.name]

theorem callBoth_spelling {op : BinaryOp} {name : String} (spelled : op.spelling = .call name) (x y : Int) :
    callBoth name.toList x y = op.exact x y := by
  cases op <;> cases spelled <;> simp [callBoth, BinaryOp.spelling]

section Read

variable {face : UInt32 → UInt32} {refs : References}

theorem read_append (c : Calculator) (ts us : List Token) :
    c.read face refs (ts ++ us) = (c.read face refs ts).read face refs us := by
  rw [read, read, read, List.foldl_append]

theorem read_cons (c : Calculator) (t : Token) (ts : List Token) :
    c.read face refs (t :: ts) = (c.step face refs t).read face refs ts := by
  rw [read, read, List.foldl_cons]

theorem read_singleton (c : Calculator) (t : Token) : c.read face refs [t] = c.step face refs t := by
  rw [read_cons, read, List.foldl_nil]

theorem reads_words {stack : List Pending} (carries : Carries stack .sum) {words : List (List Char)}
    {x : Int} {c : Calculator} (reads : Reads .additive stack x c) :
    Reads .additive stack (x + words.foldr (fun word sum => Expr.reading face refs word + sum) 0)
      (c.read face refs (words.map .word)) := by
  induction words generalizing x c with
  | nil => simpa [read] using reads
  | cons w ws ih =>
    have next : Reads .additive stack (x + Expr.reading face refs w) (c.step face refs (.word w)) := by
      have pushed : c.push .sum = ⟨pending .sum stack x, none⟩ := push_of_reads reads
      rw [step, pushed]
      exact reads_operation carries reads_value
    have rest := ih next
    rw [List.map_cons, List.foldr_cons, read_cons, ← Int.add_assoc]
    exact rest

end Read

end Calculator
end DiceAlgebra
