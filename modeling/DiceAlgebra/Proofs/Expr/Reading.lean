import DiceAlgebra.Proofs.Expr.Calculator

/-! Reading an expression from left to right gives its total. What was on the stack before may be worked into
the left end of the expression, which does no harm as long as that end is a sum, or a product not led by a
quotient. -/
namespace DiceAlgebra.Expr

open Token Calculator

variable {face : UInt32 → UInt32} {refs : References}

/-- Whatever of the stack is carried out while the expression is read can as well be carried out
afterwards. -/
def Accepts (stack : List Pending) : Expr → Prop
  | .leaf l => l.precedence = .additive → Carries stack .sum
  | .unary _ _ => True
  | .binary op a _ =>
    match op.spelling with
    | .call _ => True
    | .between _ =>
      Carries stack op ∧ (op.wrapsLeft (precedence a) = false → Accepts stack a)

theorem not_lt_of_wrapsLeft {op : BinaryOp} {p : Precedence} (bare : op.wrapsLeft p = false) :
    ¬ p < op.precedence := by
  rw [BinaryOp.wrapsLeft, Bool.or_eq_false_iff, decide_eq_false_iff_not] at bare
  exact bare.1

theorem not_lt_of_wrapsRight {op : BinaryOp} {p : Precedence} {alike : Bool}
    (bare : op.wrapsRight p alike = false) : ¬ p < op.precedence := by
  rw [BinaryOp.wrapsRight, Bool.or_eq_false_iff, decide_eq_false_iff_not] at bare
  exact bare.1

theorem accepts_of_settled {x : Expr} {stack : List Pending} (settled : Settled (precedence x) stack) :
    Accepts stack x := by
  induction x with
  | leaf l =>
    intro additive
    have settled : Settled l.precedence stack := settled
    rw [additive] at settled
    exact carries_of_settled settled
  | unary op x ih => trivial
  | binary op a b iha ihb =>
    unfold Accepts
    split
    · trivial
    · refine ⟨carries_of_settled settled, fun bare => ?_⟩
      exact iha (settled_of_not_lt settled (not_lt_of_wrapsLeft bare))

private theorem lt_or_eq_of_not_lt {p q : Precedence} (le : ¬ q < p) : p < q ∨ q = p := by
  revert le
  cases p <;> cases q <;> decide

private theorem exact_regroup {op root : BinaryOp} (regroups : op = .sum ∨ op = .product)
    (same : root.precedence = op.precedence) (visible : op = .product → root ≠ .fraction)
    (left x y : Int) : op.exact left (root.exact x y) = root.exact (op.exact left x) y := by
  rcases regroups with rfl | rfl
  · cases root with
    | sum => exact (Int.add_assoc left x y).symm
    | difference => exact (Int.add_sub_assoc left x y).symm
    | product | fraction | power | min | max => cases same
  · cases root with
    | product => exact (Int.mul_assoc left x y).symm
    | fraction => exact absurd rfl (visible rfl)
    | sum | difference | power | min | max => cases same

/-- An operation on top of the stack may be carried out before the rest of an operand that is spared its
parentheses: sums regroup, and so do products that no quotient leads. -/
theorem accepts_operation {op : BinaryOp} (regroups : op = .sum ∨ op = .product) {left : Int}
    {base : List Pending} (settled : Settled op.precedence base) {x : Expr}
    (tight : ¬ precedence x < op.precedence)
    (visible : op = .product → x.leadsWithQuotient = false) :
    Accepts (.operation left op :: base) x := by
  induction x with
  | leaf l =>
    intro additive
    change ¬ l.precedence < op.precedence at tight
    rw [additive] at tight
    rcases regroups with rfl | rfl
    · exact carries_operation settled rfl fun x y => (Int.add_assoc left x y).symm
    · exact absurd (by decide) tight
  | unary root x ih => trivial
  | binary root a b iha ihb =>
    rcases lt_or_eq_of_not_lt tight with above | same
    · exact accepts_of_settled above
    change root.precedence = op.precedence at same
    have no_quotient : op = .product → root ≠ .fraction := by
      rintro product rfl
      cases visible product
    unfold Accepts
    split
    · trivial
    · refine ⟨carries_operation settled same (exact_regroup regroups same no_quotient left), fun bare => ?_⟩
      apply iha
      · rw [← same]
        exact not_lt_of_wrapsLeft bare
      · intro product
        have inner := visible product
        have apart := no_quotient product
        rw [product] at same
        cases root with
        | product => exact inner
        | fraction => exact absurd rfl apart
        | sum | difference | power | min | max => cases same

theorem accepts_right {op : BinaryOp} {left : Int} {base : List Pending}
    (settled : Settled op.precedence base) {symbol : String} (spelled : op.spelling = .between symbol)
    {a b : Expr} (visible : (Formula.binary op a b).hidesQuotient = false)
    (bare : op.wrapsRight (precedence b) (b.hasRoot op) = false) :
    Accepts (.operation left op :: base) b := by
  rw [BinaryOp.wrapsRight, Bool.or_eq_false_iff, Bool.and_eq_false_iff, decide_eq_false_iff_not,
    decide_eq_false_iff_not, Bool.not_eq_false', Bool.and_eq_true] at bare
  rcases bare with ⟨tight, apart | ⟨commutative, alike⟩⟩
  · rcases lt_or_eq_of_not_lt tight with above | same
    · exact accepts_of_settled above
    · exact absurd same apart
  · have regroups : op = .sum ∨ op = .product := by
      cases op with
      | sum => exact .inl rfl
      | product => exact .inr rfl
      | difference | fraction | power => cases commutative
      | min | max => cases spelled
    apply accepts_operation regroups settled tight
    rintro rfl
    simp only [Formula.hidesQuotient, Bool.or_eq_false_iff, alike, decide_true, Bool.true_and] at visible
    exact visible.2

theorem reads_enclose {p : Precedence} {x : Expr} {v : Int} {wrap : Bool} {stack : List Pending}
    (reads : ∀ stack, Accepts stack x →
      Reads (precedence x) stack v (read face refs ⟨stack, none⟩ (tokens x)))
    (tight : wrap = false → ¬ precedence x < p) (accepts : wrap = false → Accepts stack x) :
    Reads p stack v (read face refs ⟨stack, none⟩ (enclose wrap (tokens x))) := by
  cases wrap with
  | false => exact reads_of_not_lt (tight rfl) (reads stack (accepts rfl))
  | true =>
    have inside := reads (.call [] :: stack) (accepts_of_settled (by trivial))
    change Reads p stack v (read face refs ⟨stack, none⟩ (.opening [] :: (tokens x ++ [.closing])))
    rw [read_cons, read_append, read_singleton, step]
    rw [step_closing_call inside, call_nil]
    exact reads_value

theorem Leaf.exists_word {l : Leaf} (h : l.precedence ≠ .additive) : ∃ w, l.words = [w] := by
  cases l with
  | die faces => exact ⟨_, rfl⟩
  | num value => exact ⟨_, rfl⟩
  | ref name => exact ⟨_, rfl⟩
  | pool p =>
    have few : ¬ 1 < p.entries.length := fun many => h (if_pos many)
    simp only [words]
    cases entries : p.entries with
    | nil => exact ⟨_, rfl⟩
    | cons d ds =>
      rw [entries, List.length_cons] at few
      have none_left : ds = [] := List.length_eq_zero_iff.mp (by omega)
      rw [none_left]
      exact ⟨_, rfl⟩

theorem reads_leaf {l : Leaf} (named : l.NamedByLetters) {v : Int32}
    (value : shownValue face refs (.leaf l) = some v) {stack : List Pending}
    (accepts : l.precedence = .additive → Carries stack .sum) :
    Reads l.precedence stack v.toInt (read face refs ⟨stack, none⟩ (l.words.map .word)) := by
  have total := Leaf.sum_reading_words named value
  by_cases additive : l.precedence = .additive
  · rw [additive]
    obtain ⟨w, ws, words⟩ := List.exists_cons_of_ne_nil l.words_ne_nil
    rw [words, List.foldr_cons] at total
    rw [words, List.map_cons, read_cons, ← total]
    exact reads_words (accepts additive) reads_value
  · obtain ⟨w, words⟩ := Leaf.exists_word additive
    rw [words, List.foldr_cons, List.foldr_nil, Int.add_zero] at total
    rw [words, List.map_cons, List.map_nil, read_singleton, ← total]
    exact reads_value

theorem reads_tokens {e : Expr} (named : NamedByLetters e) (visible : e.hidesQuotient = false)
    {v : Int32} (value : shownValue face refs e = some v) {stack : List Pending}
    (accepts : Accepts stack e) :
    Reads (precedence e) stack v.toInt (read face refs ⟨stack, none⟩ (tokens e)) := by
  induction e generalizing v stack with
  | leaf l => exact reads_leaf (named l (List.mem_singleton.mpr rfl)) value accepts
  | unary op x ih =>
    rcases shownValue_unary.mp value with ⟨w, value_x, applied⟩
    have inside := @ih named visible w value_x (.call op.name.toList :: stack)
      (accepts_of_settled (by trivial))
    change Reads _ stack v.toInt (read face refs ⟨stack, none⟩ (.opening _ :: (tokens x ++ [.closing])))
    rw [read_cons, read_append, read_singleton, step]
    rw [step_closing_call inside, call_name, ← UnaryOp.apply_eq_ok_iff.mp applied]
    exact reads_value
  | binary op a b iha ihb =>
    rcases shownValue_binary.mp value with ⟨w₁, w₂, value_a, value_b, applied⟩
    have named_ab := namedByLetters_binary named
    have parts : a.hidesQuotient = false ∧ b.hidesQuotient = false := by
      rw [Formula.hidesQuotient, Bool.or_eq_false_iff, Bool.or_eq_false_iff] at visible
      exact visible.1
    have reads_a := fun stack => @iha named_ab.1 parts.1 w₁ value_a stack
    have reads_b := fun stack => @ihb named_ab.2 parts.2 w₂ value_b stack
    rw [(BinaryOp.apply_eq_ok_iff.mp applied).2]
    unfold tokens
    unfold Accepts at accepts
    cases spelled : op.spelling with
    | call name =>
      have first := reads_a (.call name.toList :: stack) (accepts_of_settled (by trivial))
      have second := reads_b (.callSecond name.toList w₁.toInt :: stack) (accepts_of_settled (by trivial))
      dsimp only
      rw [read_cons, read_append, read_cons, read_append, read_singleton, step, step_comma first]
      rw [step_closing_second second, callBoth_spelling spelled]
      exact reads_value
    | between symbol =>
      rw [spelled] at accepts
      have left : Reads op.precedence stack w₁.toInt (read face refs ⟨stack, none⟩
          (enclose (op.wrapsLeft (precedence a)) (tokens a))) :=
        reads_enclose reads_a not_lt_of_wrapsLeft accepts.2
      have right : Reads op.precedence (pending op stack w₁.toInt) w₂.toInt
          (read face refs ⟨pending op stack w₁.toInt, none⟩
            (enclose (op.wrapsRight (precedence b) (b.hasRoot op)) (tokens b))) :=
        reads_enclose reads_b not_lt_of_wrapsRight (accepts_right (settled_reduce ..) spelled visible)
      rw [read_append, read_cons, step, push_of_reads left]
      exact reads_operation accepts.1 right

end DiceAlgebra.Expr
