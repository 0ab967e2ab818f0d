import DiceAlgebra.Formula

/-! Products written without parentheses. A product that is the right factor of another one is not enclosed,
as if products could be regrouped at will. They cannot once a quotient comes first in it: in the text, the
quotient is taken of everything to its left. -/
namespace DiceAlgebra.Formula

variable {α : Type}

/-- Whether the leftmost of a chain of factors is a quotient. -/
def leadsWithQuotient : Formula α → Bool
  | binary .fraction _ _ => true
  | binary .product a _ => a.leadsWithQuotient
  | _ => false

/-- Whether the text of the formula has lost parentheses in front of a quotient. -/
def hidesQuotient : Formula α → Bool
  | leaf _ => false
  | unary _ x => x.hidesQuotient
  | binary op a b =>
    a.hidesQuotient || b.hidesQuotient ||
      (op = .product && b.hasRoot .product && b.leadsWithQuotient)

/-- Makes `a` the first factor of a chain of factors. -/
def graft (a : Formula α) : Formula α → Formula α
  | binary .product x y => binary .product (graft a x) y
  | binary .fraction x y => binary .fraction (graft a x) y
  | x => binary .product a x

/-- Groups every chain of products and quotients from the left, as its text is read. -/
def regroup : Formula α → Formula α
  | leaf l => leaf l
  | unary op x => unary op x.regroup
  | binary op a b =>
    if op = .product ∧ b.hasRoot .product then graft a.regroup b.regroup
    else binary op a.regroup b.regroup

theorem leaves_graft (a b : Formula α) : (graft a b).leaves = a.leaves ++ b.leaves := by
  fun_induction graft a b with
  | case1 x y ih => rw [leaves, ih, leaves, List.append_assoc]
  | case2 x y ih => rw [leaves, ih, leaves, List.append_assoc]
  | case3 => rfl

theorem leaves_regroup (x : Formula α) : x.regroup.leaves = x.leaves := by
  induction x with
  | leaf l => rfl
  | unary op x ih => exact ih
  | binary op a b iha ihb =>
    unfold regroup
    split
    · rw [leaves_graft, iha, ihb, leaves]
    · rw [leaves, iha, ihb, leaves]

theorem hasRoot_product_iff {x : Formula α} :
    x.hasRoot .product = true ↔ ∃ a b, x = binary .product a b := by
  cases x with
  | leaf l => simp [hasRoot]
  | unary op x => simp [hasRoot]
  | binary op a b => simp [hasRoot]

theorem hasRoot_graft {a b : Formula α} (chain : b.hasRoot .product = true) (op : BinaryOp) :
    (graft a b).hasRoot op = b.hasRoot op := by
  rcases hasRoot_product_iff.mp chain with ⟨x, y, rfl⟩
  rfl

theorem hasRoot_regroup (x : Formula α) (op : BinaryOp) : x.regroup.hasRoot op = x.hasRoot op := by
  induction x generalizing op with
  | leaf l => rfl
  | unary root x ih => rfl
  | binary root a b iha ihb =>
    unfold regroup
    split
    · next chain =>
      have inner := (ihb .product).trans chain.2
      rw [hasRoot_graft inner, ihb]
      rcases hasRoot_product_iff.mp chain.2 with ⟨x, y, rfl⟩
      rw [chain.1]
      rfl
    · rfl

theorem hidesQuotient_graft {a b : Formula α} (plain_a : a.hidesQuotient = false)
    (plain_b : b.hidesQuotient = false) : (graft a b).hidesQuotient = false := by
  fun_induction graft a b with
  | case1 x y ih =>
    simp only [hidesQuotient, Bool.or_eq_false_iff] at plain_b ⊢
    exact ⟨⟨ih plain_b.1.1, plain_b.1.2⟩, plain_b.2⟩
  | case2 x y ih =>
    simp only [hidesQuotient, Bool.or_eq_false_iff] at plain_b ⊢
    exact ⟨⟨ih plain_b.1.1, plain_b.1.2⟩, plain_b.2⟩
  | case3 x not_product not_fraction =>
    have single : x.hasRoot .product = false := by
      rw [← Bool.not_eq_true, hasRoot_product_iff]
      rintro ⟨y, z, same⟩
      exact not_product y z same
    simp [hidesQuotient, plain_a, plain_b, single]

theorem hidesQuotient_regroup (x : Formula α) : x.regroup.hidesQuotient = false := by
  induction x with
  | leaf l => rfl
  | unary op x ih => exact ih
  | binary op a b iha ihb =>
    unfold regroup
    split
    · exact hidesQuotient_graft iha ihb
    · next apart =>
      have visible : (decide (op = .product) && b.hasRoot .product) = false := by
        rw [← Bool.not_eq_true, Bool.and_eq_true, decide_eq_true_eq]
        exact apart
      simp only [hidesQuotient, iha, ihb, hasRoot_regroup, visible, Bool.or_self, Bool.false_and]

theorem hasRoot_map {β : Type} (f : α → β) (x : Formula α) (op : BinaryOp) :
    (x.map f).hasRoot op = x.hasRoot op := by
  cases x <;> rfl

theorem graft_map {β : Type} (f : α → β) (a b : Formula α) :
    graft (a.map f) (b.map f) = (graft a b).map f := by
  fun_induction graft a b with
  | case1 x y ih => rw [map, graft, ih, map]
  | case2 x y ih => rw [map, graft, ih, map]
  | case3 x not_product not_fraction =>
    cases x with
    | leaf l => rfl
    | unary op x => rfl
    | binary op x y =>
      cases op with
      | product => exact absurd rfl (not_product x y)
      | fraction => exact absurd rfl (not_fraction x y)
      | sum | difference | power | min | max => rfl

theorem regroup_map {β : Type} (f : α → β) (x : Formula α) :
    (x.map f).regroup = x.regroup.map f := by
  induction x with
  | leaf l => rfl
  | unary op x ih => rw [map, regroup, ih, regroup, map]
  | binary op a b iha ihb =>
    rw [map, regroup, hasRoot_map, iha, ihb, regroup]
    split
    · exact graft_map f a.regroup b.regroup
    · rfl

section Text

variable (style : LeafStyle α)

theorem precedence_graft (a b : Formula α) : (graft a b).precedence style = .multiplicative := by
  fun_cases graft a b <;> rfl

theorem precedence_regroup (x : Formula α) :
    x.regroup.precedence style = x.precedence style := by
  cases x with
  | leaf l => rfl
  | unary op x => rfl
  | binary op a b =>
    unfold regroup
    split
    · next chain =>
      rw [precedence_graft, chain.1]
      rfl
    · rfl

/-- A formula as the first factor of others. -/
def factorText (x : Formula α) : String :=
  enclose (BinaryOp.product.wrapsLeft (x.precedence style)) (x.render style)

theorem factorText_of_multiplicative {x : Formula α} (h : x.precedence style = .multiplicative) :
    factorText style x = x.render style := by
  rw [factorText, h]
  rfl

/-- The text does not tell how factors are grouped. -/
theorem render_graft (simple : ∀ l, style.precedence l ≠ .multiplicative) (a b : Formula α) :
    (graft a b).render style = factorText style a ++ " " ++ "*" ++ " " ++ factorText style b := by
  fun_induction graft a b with
  | case1 x y ih =>
    rw [factorText_of_multiplicative style (x := binary .product x y) rfl]
    change factorText style (graft a x) ++ _ ++ _ ++ _ ++ _ =
      _ ++ (factorText style x ++ _ ++ _ ++ _ ++ _)
    rw [factorText_of_multiplicative style (precedence_graft style a x), ih]
    simp only [String.append_assoc]
  | case2 x y ih =>
    rw [factorText_of_multiplicative style (x := binary .fraction x y) rfl]
    change factorText style (graft a x) ++ _ ++ _ ++ _ ++ _ =
      _ ++ (factorText style x ++ _ ++ _ ++ _ ++ _)
    rw [factorText_of_multiplicative style (precedence_graft style a x), ih]
    simp only [String.append_assoc]
  | case3 x not_product not_fraction =>
    have apart : x.precedence style ≠ .multiplicative := by
      cases x with
      | leaf l => exact simple l
      | unary op x => simp [precedence]
      | binary op x y =>
        cases op with
        | product => exact absurd rfl (not_product x y)
        | fraction => exact absurd rfl (not_fraction x y)
        | sum | difference | power | min | max => simp [precedence, BinaryOp.precedence]
    have alike : BinaryOp.product.wrapsRight (x.precedence style) (x.hasRoot .product) =
        BinaryOp.product.wrapsLeft (x.precedence style) := by
      simp [BinaryOp.wrapsRight, BinaryOp.wrapsLeft, BinaryOp.precedence, apart]
    change factorText style a ++ _ ++ _ ++ _ ++ enclose _ _ = _
    rw [alike]
    rfl

theorem render_regroup (simple : ∀ l, style.precedence l ≠ .multiplicative) (x : Formula α) :
    x.regroup.render style = x.render style := by
  induction x with
  | leaf l => rfl
  | unary op x ih =>
    unfold regroup render
    rw [ih]
  | binary op a b iha ihb =>
    unfold regroup
    split
    · next chain =>
      rcases chain with ⟨rfl, chain⟩
      rcases hasRoot_product_iff.mp chain with ⟨x, y, rfl⟩
      rw [render_graft style simple, factorText, factorText, precedence_regroup, precedence_regroup,
        iha, ihb]
      rfl
    · simp only [render, precedence_regroup, hasRoot_regroup, iha, ihb]

end Text

end DiceAlgebra.Formula
