import DiceAlgebra.Proofs.Formula.Regroup
import DiceAlgebra.Proofs.Operator.Exact
import DiceAlgebra.Proofs.Expr.ShownValue

/-! Hidden quotients do harm. Wherever operations are arranged so that one is hidden, there are numbers for
the leaves that make the total change with the grouping. The numbers are chosen from the hidden quotient
outward: the two totals are kept apart, and small, by every operation around it. -/
namespace DiceAlgebra.Formula

variable {α β : Type}

/-- The same operations in the same places. -/
inductive SameShape : Formula α → Formula β → Prop where
  | leaf (l : α) (l' : β) : SameShape (leaf l) (leaf l')
  | unary (op : UnaryOp) {x : Formula α} {y : Formula β} : SameShape x y →
    SameShape (unary op x) (unary op y)
  | binary (op : BinaryOp) {a b : Formula α} {c d : Formula β} : SameShape a c → SameShape b d →
    SameShape (binary op a b) (binary op c d)

theorem sameShape_refl (x : Formula α) : SameShape x x := by
  induction x with
  | leaf l => exact .leaf l l
  | unary op x ih => exact .unary op ih
  | binary op a b iha ihb => exact .binary op iha ihb

theorem sameShape_map {γ : Type} (f : α → γ) {x : Formula α} {y : Formula β} (shape : SameShape x y) :
    SameShape (x.map f) y := by
  induction shape with
  | leaf l l' => exact .leaf (f l) l'
  | unary op _ ih => exact .unary op ih
  | binary op _ _ left right => exact .binary op left right

theorem hasRoot_of_sameShape {x : Formula α} {y : Formula β} (shape : SameShape x y) (op : BinaryOp) :
    x.hasRoot op = y.hasRoot op := by
  cases shape <;> rfl

theorem leadsWithQuotient_of_sameShape {x : Formula α} {y : Formula β} (shape : SameShape x y) :
    x.leadsWithQuotient = y.leadsWithQuotient := by
  induction shape with
  | leaf l l' => rfl
  | unary op _ ih => rfl
  | binary op _ _ left right =>
    cases op with
    | product => exact left
    | sum | difference | fraction | power | min | max => rfl

theorem hidesQuotient_of_sameShape {x : Formula α} {y : Formula β} (shape : SameShape x y) :
    x.hidesQuotient = y.hidesQuotient := by
  induction shape with
  | leaf l l' => rfl
  | unary op _ ih => exact ih
  | binary op _ right iha ihb =>
    rw [hidesQuotient, hidesQuotient, iha, ihb, hasRoot_of_sameShape right,
      leadsWithQuotient_of_sameShape right]

/-- The total of a formula over plain numbers. -/
def Totals (x : Formula Int32) (v : Int32) : Prop :=
  Outcome.value (x.map Outcome.Leaf.num) = .ok v

theorem totals_leaf (v : Int32) : Totals (leaf v) v :=
  rfl

theorem totals_unary {op : UnaryOp} {x : Formula Int32} {v w : Int32} (total : Totals x w)
    (applied : op.apply w = .ok v) : Totals (unary op x) v :=
  Outcome.value_unary_eq_ok_iff.mpr ⟨w, total, applied⟩

theorem totals_binary {op : BinaryOp} {a b : Formula Int32} {v w₁ w₂ : Int32} (left : Totals a w₁)
    (right : Totals b w₂) (applied : op.apply w₁ w₂ = .ok v) : Totals (binary op a b) v :=
  Outcome.value_binary_eq_ok_iff.mpr ⟨w₁, w₂, left, right, applied⟩

theorem totals_binary_iff {op : BinaryOp} {a b : Formula Int32} {v : Int32} :
    Totals (binary op a b) v ↔ ∃ w₁ w₂, Totals a w₁ ∧ Totals b w₂ ∧ op.apply w₁ w₂ = .ok v :=
  Outcome.value_binary_eq_ok_iff

theorem graft_graft (a b c : Formula α) : graft a (graft b c) = graft (graft a b) c := by
  fun_induction graft b c with
  | case1 x y ih => rw [graft, ih, graft]
  | case2 x y ih => rw [graft, ih, graft]
  | case3 x not_product not_fraction =>
    have alone : graft (graft a b) x = binary .product (graft a b) x := by
      rw [graft]
      · exact not_product
      · exact not_fraction
    rw [alone, graft]

theorem apply_product_one (v : Int32) : BinaryOp.product.apply v 1 = .ok v :=
  BinaryOp.apply_eq_ok_iff.mpr ⟨trivial, (Int.mul_one v.toInt).symm⟩

theorem apply_one_product (v : Int32) : BinaryOp.product.apply 1 v = .ok v :=
  BinaryOp.apply_eq_ok_iff.mpr ⟨trivial, (Int.one_mul v.toInt).symm⟩

theorem apply_fraction_one (v : Int32) : BinaryOp.fraction.apply v 1 = .ok v := by
  have one : (1 : Int32).toInt ≠ 0 := by decide
  exact BinaryOp.apply_eq_ok_iff.mpr ⟨one, (Int.tdiv_one v.toInt).symm⟩

def small : List Int32 := [0, 1, 2, 3, 4, 5, 6]

/-- A right operand that leaves small numbers as they are. -/
def neutral : BinaryOp → Int32
  | .sum | .difference | .max => 0
  | .product | .fraction | .power => 1
  | .min => 6

theorem neutral_mem_small (op : BinaryOp) : neutral op ∈ small := by
  cases op <;> decide

private theorem ok_of_toOption {result : Except Fault Int32} {v : Int32}
    (h : result.toOption = some v) : result = .ok v := by
  cases result with
  | error fault => cases h
  | ok w =>
    cases h
    rfl

theorem apply_neutral (op : BinaryOp) {k : Int32} (h : k ∈ small) :
    op.apply k (neutral op) = .ok k := by
  have each : small.all (fun k => (op.apply k (neutral op)).toOption == some k) = true := by
    cases op <;> decide
  exact ok_of_toOption (beq_iff_eq.mp (List.all_eq_true.mp each k h))

theorem apply_unary (op : UnaryOp) {k : Int32} (h : k ∈ small) : op.apply k = .ok k := by
  have each : small.all (fun k => (op.apply k).toOption == some k) = true := by
    cases op <;> decide
  exact ok_of_toOption (beq_iff_eq.mp (List.all_eq_true.mp each k h))

/-- Numbers for the leaves of `e` that total to `k`, also after regrouping, and that multiply a factor
grafted onto them by `k`. -/
structure Filled (e : Formula α) (k : Int32) (x : Formula Int32) : Prop where
  shape : SameShape x e
  total : Totals x k
  regrouped : Totals x.regroup k
  grafted : ∀ a v w, Totals a v → BinaryOp.product.apply v k = .ok w → Totals (graft a x.regroup) w

theorem exists_filled (e : Formula α) : ∀ k ∈ small, ∃ x, Filled e k x := by
  induction e with
  | leaf l =>
    intro k _
    exact ⟨leaf k, .leaf k l, rfl, rfl, fun a v w total applied => totals_binary total (totals_leaf k) applied⟩
  | unary op x ih =>
    intro k member
    obtain ⟨y, shape, total, regrouped, _⟩ := ih k member
    have applied := apply_unary op member
    have around := totals_unary regrouped applied
    exact ⟨unary op y, .unary op shape, totals_unary total applied, around,
      fun a v w total_a product => totals_binary total_a around product⟩
  | binary op a b iha ihb =>
    intro k member
    obtain ⟨y, shape_y, total_y, regrouped_y, grafted_y⟩ := iha k member
    obtain ⟨z, shape_z, total_z, regrouped_z, grafted_z⟩ := ihb (neutral op) (neutral_mem_small op)
    have applied := apply_neutral op member
    refine ⟨binary op y z, .binary op shape_y shape_z, totals_binary total_y total_z applied, ?_, ?_⟩
    · unfold regroup
      split
      · next chain =>
        rw [chain.1] at grafted_z
        exact grafted_z y.regroup k k regrouped_y (apply_product_one k)
      · exact totals_binary regrouped_y regrouped_z applied
    · intro c v w total_c product
      unfold regroup
      split
      · next chain =>
        rw [chain.1] at grafted_z
        rw [graft_graft]
        exact grafted_z _ w w (grafted_y c v w total_c product) (apply_product_one w)
      · cases op with
        | product => exact totals_binary (grafted_y c v w total_c product) regrouped_z (apply_product_one w)
        | fraction => exact totals_binary (grafted_y c v w total_c product) regrouped_z (apply_fraction_one w)
        | sum | difference | power | min | max =>
          exact totals_binary total_c (totals_binary regrouped_y regrouped_z applied) product

/-- Pairs of totals that stay apart. Divisors have to be nonzero, and exponents stay low only if they are
zero and one. -/
def apart (divisor : Bool) : List (Int32 × Int32) :=
  if divisor then [(1, 2), (2, 1), (2, 3), (3, 2)] else [(0, 1), (1, 0)]

/-- The pairs that the right operand has to have for the operation to have these. -/
def apartRight : BinaryOp → Bool → Bool
  | .fraction, _ => true
  | .power, _ => false
  | _, divisor => divisor

theorem mem_apart {divisor : Bool} {pair : Int32 × Int32} (h : pair ∈ apart divisor) :
    pair.1 ≠ pair.2 ∧ pair.1 ∈ small ∧ pair.2 ∈ small := by
  have each : (apart divisor).all (fun pair =>
      pair.1 ≠ pair.2 ∧ pair.1 ∈ small ∧ pair.2 ∈ small) = true := by
    cases divisor <;> decide
  exact of_decide_eq_true (List.all_eq_true.mp each pair h)

theorem exists_left (op : BinaryOp) (divisor : Bool) {pair : Int32 × Int32}
    (h : pair ∈ apart (apartRight op divisor)) :
    ∃ k ∈ small, (op = .product → k = 1) ∧ ∃ pair' ∈ apart divisor,
      op.apply k pair.1 = .ok pair'.1 ∧ op.apply k pair.2 = .ok pair'.2 := by
  have each : (apart (apartRight op divisor)).all (fun pair => small.any fun k =>
      decide (op = .product → k = 1) && (apart divisor).any fun pair' =>
        (op.apply k pair.1).toOption == some pair'.1 && (op.apply k pair.2).toOption == some pair'.2) =
      true := by
    cases op <;> cases divisor <;> decide
  have found := List.all_eq_true.mp each pair h
  simp only [List.any_eq_true, Bool.and_eq_true, decide_eq_true_eq, beq_iff_eq] at found
  obtain ⟨k, member, one, pair', member', first, second⟩ := found
  exact ⟨k, member, one, pair', member', ok_of_toOption first, ok_of_toOption second⟩

theorem totals_graft {a b : Formula Int32} (one : Totals a 1) {v : Int32} (total : Totals b v) :
    Totals (graft a b) v := by
  fun_induction graft a b generalizing v with
  | case1 x y ih =>
    obtain ⟨w₁, w₂, left, right, applied⟩ := totals_binary_iff.mp total
    exact totals_binary (ih left) right applied
  | case2 x y ih =>
    obtain ⟨w₁, w₂, left, right, applied⟩ := totals_binary_iff.mp total
    exact totals_binary (ih left) right applied
  | case3 x not_product not_fraction => exact totals_binary one total (apply_one_product v)

/-- With numbers whose quotient by two leads a chain of factors, it matters whether two is a factor before
the quotient is taken. -/
theorem exists_halved {e : Formula α} (leads : e.leadsWithQuotient = true) {p half twice : Int32}
    (member : p ∈ small) (halved : BinaryOp.fraction.apply p 2 = .ok half)
    (doubled : BinaryOp.product.apply 2 p = .ok twice) (back : BinaryOp.fraction.apply twice 2 = .ok p) :
    ∃ x, SameShape x e ∧ Totals x half ∧ ∀ a, Totals a 2 → Totals (graft a x.regroup) p := by
  induction e with
  | leaf l => cases leads
  | unary op x ih => cases leads
  | binary op a b iha ihb =>
    cases op with
    | fraction =>
      obtain ⟨y, shape_y, total_y, regrouped_y, grafted_y⟩ := exists_filled a p member
      obtain ⟨z, shape_z, total_z, regrouped_z, _⟩ := exists_filled b 2 (by decide)
      refine ⟨binary .fraction y z, .binary .fraction shape_y shape_z, totals_binary total_y total_z halved, ?_⟩
      intro c total_c
      exact totals_binary (grafted_y c 2 twice total_c doubled) regrouped_z back
    | product =>
      obtain ⟨y, shape_y, total_y, grafted_y⟩ := iha leads
      obtain ⟨z, shape_z, total_z, regrouped_z, grafted_z⟩ := exists_filled b 1 (by decide)
      refine ⟨binary .product y z, .binary .product shape_y shape_z,
        totals_binary total_y total_z (apply_product_one half), ?_⟩
      intro c total_c
      have first := grafted_y c total_c
      unfold regroup
      split
      · rw [graft_graft]
        exact grafted_z _ p p first (apply_product_one p)
      · exact totals_binary first regrouped_z (apply_product_one p)
    | sum | difference | power | min | max => cases leads

theorem exists_apart {e : Formula α} (hides : e.hidesQuotient = true) (divisor : Bool) :
    ∃ x, SameShape x e ∧ ∃ pair ∈ apart divisor, Totals x pair.1 ∧ Totals x.regroup pair.2 := by
  induction e generalizing divisor with
  | leaf l => cases hides
  | unary op x ih =>
    obtain ⟨y, shape, pair, member, total, regrouped⟩ := ih hides divisor
    have low := (mem_apart member).2
    exact ⟨unary op y, .unary op shape, pair, member, totals_unary total (apply_unary op low.1),
      totals_unary regrouped (apply_unary op low.2)⟩
  | binary op a b iha ihb =>
    rw [hidesQuotient, Bool.or_eq_true, Bool.or_eq_true, Bool.and_eq_true, Bool.and_eq_true,
      decide_eq_true_eq] at hides
    rcases hides with (hides | hides) | ⟨⟨rfl, chain⟩, leads⟩
    · obtain ⟨y, shape_y, pair, member, total_y, regrouped_y⟩ := iha hides divisor
      obtain ⟨z, shape_z, total_z, regrouped_z, grafted_z⟩ :=
        exists_filled b (neutral op) (neutral_mem_small op)
      have low := (mem_apart member).2
      refine ⟨binary op y z, .binary op shape_y shape_z, pair, member,
        totals_binary total_y total_z (apply_neutral op low.1), ?_⟩
      unfold regroup
      split
      · next chain =>
        rw [chain.1] at grafted_z
        exact grafted_z _ _ _ regrouped_y (apply_product_one pair.2)
      · exact totals_binary regrouped_y regrouped_z (apply_neutral op low.2)
    · obtain ⟨z, shape_z, pair, member, total_z, regrouped_z⟩ := ihb hides (apartRight op divisor)
      obtain ⟨k, k_small, one, pair', member', first, second⟩ := exists_left op divisor member
      obtain ⟨y, shape_y, total_y, regrouped_y, _⟩ := exists_filled a k k_small
      refine ⟨binary op y z, .binary op shape_y shape_z, pair', member',
        totals_binary total_y total_z first, ?_⟩
      unfold regroup
      split
      · next chain =>
        rw [one chain.1] at regrouped_y second
        rw [chain.1, apply_one_product] at second
        rw [← Except.ok.inj second]
        exact totals_graft regrouped_y regrouped_z
      · exact totals_binary regrouped_y regrouped_z second
    · obtain ⟨y, shape_y, total_y, regrouped_y, _⟩ := exists_filled a 2 (by decide)
      have inner : ∀ {p half twice out : Int32}, p ∈ small → BinaryOp.fraction.apply p 2 = .ok half →
          BinaryOp.product.apply 2 p = .ok twice → BinaryOp.fraction.apply twice 2 = .ok p →
          BinaryOp.product.apply 2 half = .ok out →
          ∃ x, SameShape x (binary .product a b) ∧ Totals x out ∧ Totals x.regroup p := by
        intro p half twice out p_small halved doubled back product
        obtain ⟨z, shape_z, total_z, grafted_z⟩ := exists_halved leads p_small halved doubled back
        refine ⟨binary .product y z, .binary .product shape_y shape_z, totals_binary total_y total_z product, ?_⟩
        rw [regroup, if_pos ⟨rfl, (hasRoot_of_sameShape shape_z .product).trans chain⟩]
        exact grafted_z _ regrouped_y
      cases divisor with
      | false =>
        obtain ⟨x, shape, total, regrouped⟩ :=
          @inner 1 0 2 0 (by decide) rfl rfl rfl rfl
        exact ⟨x, shape, (0, 1), by decide, total, regrouped⟩
      | true =>
        obtain ⟨x, shape, total, regrouped⟩ :=
          @inner 3 1 6 2 (by decide) rfl rfl rfl rfl
        exact ⟨x, shape, (2, 3), by decide, total, regrouped⟩

end DiceAlgebra.Formula
