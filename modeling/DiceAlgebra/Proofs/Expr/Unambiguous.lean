import DiceAlgebra.Proofs.Expr.Reading
import DiceAlgebra.Proofs.Formula.Ambiguous

/-! How far the text of an expression determines its total. It does unless a quotient is hidden, and operations
that hide one can always be given numbers for which it does not. -/
namespace DiceAlgebra.Expr

open Calculator

variable {face : UInt32 → UInt32} {refs : References}

theorem shownValue_eq_of_text_eq {e₁ e₂ : Expr} (named₁ : NamedByLetters e₁) (named₂ : NamedByLetters e₂)
    (visible₁ : e₁.hidesQuotient = false) (visible₂ : e₂.hidesQuotient = false)
    (same : text e₁ = text e₂) {v w : Int32} (value₁ : shownValue face refs e₁ = some v)
    (value₂ : shownValue face refs e₂ = some w) : v = w := by
  have first := reads_tokens named₁ visible₁ value₁ (@accepts_of_settled e₁ [] trivial)
  have second := reads_tokens named₂ visible₂ value₂ (@accepts_of_settled e₂ [] trivial)
  rw [tokens_eq_of_text_eq named₁ named₂ same] at first
  have total := (finish_of_reads (by trivial) first).symm.trans (finish_of_reads (by trivial) second)
  exact Int32.toInt_inj.mp (congrArg Prod.snd total)

theorem precedence_ne_multiplicative (l : Leaf) : Leaf.style.precedence l ≠ .multiplicative := by
  cases l with
  | pool p =>
    change (if 1 < p.size then Precedence.additive else .value) ≠ _
    split <;> decide
  | die faces => exact nofun
  | num value => exact nofun
  | ref name => exact nofun

theorem text_regroup (e : Expr) : text e.regroup = text e :=
  Formula.render_regroup Leaf.style precedence_ne_multiplicative e

theorem namedByLetters_numbers (x : Formula Int32) : NamedByLetters (x.map .num) := by
  intro l member
  rw [Formula.leaves_map] at member
  obtain ⟨v, _, rfl⟩ := List.mem_map.mp member
  trivial

section Numbers

variable {σ : Type} [Roller σ]

theorem roll_numbers (x : Formula Int32) (s : σ) :
    (roll refs (x.map .num)).run s = .ok (x.map .num) s := by
  induction x with
  | leaf v => rfl
  | unary op x ih => exact run_bind_eq_ok.mpr ⟨_, s, ih, rfl⟩
  | binary op a b iha ihb => exact run_bind_eq_ok.mpr ⟨_, s, iha, run_bind_eq_ok.mpr ⟨_, s, ihb, rfl⟩⟩

theorem evaluate_numbers {x : Formula Int32} {v : Int32} (total : x.Totals v) (s : σ) :
    (evaluate refs (x.map .num)).run s = .ok v s :=
  run_evaluate_eq_ok.mpr ⟨_, roll_numbers x s, total⟩

end Numbers

/-- Operations that hide a quotient have numbers to work on for which the same text belongs to an expression
over the same leaves that hides none and has another total. -/
theorem exists_text_eq_of_hidesQuotient {e : Expr} (hides : e.hidesQuotient = true) :
    ∃ e₁ e₂ : Expr, e₁.SameShape e ∧ NamedByLetters e₁ ∧ e₂.leaves = e₁.leaves ∧
      e₂.hidesQuotient = false ∧ text e₁ = text e₂ ∧ ∃ v w : Int32, v ≠ w ∧
        ∀ (σ : Type) [Roller σ] (refs : References) (s : σ),
          (evaluate refs e₁).run s = .ok v s ∧ (evaluate refs e₂).run s = .ok w s := by
  obtain ⟨x, shape, pair, member, total, regrouped⟩ := Formula.exists_apart hides false
  have moved : Formula.regroup (x.map Leaf.num) = x.regroup.map Leaf.num := Formula.regroup_map _ x
  refine ⟨x.map .num, x.regroup.map .num, Formula.sameShape_map _ shape, namedByLetters_numbers x, ?_, ?_,
    ?_, pair.1, pair.2, (Formula.mem_apart member).1, ?_⟩
  · rw [← moved]
    exact Formula.leaves_regroup _
  · rw [← moved]
    exact Formula.hidesQuotient_regroup _
  · rw [← moved]
    exact (text_regroup _).symm
  · intro σ _ refs s
    exact ⟨evaluate_numbers total s, evaluate_numbers regrouped s⟩

/-- Take two expressions with the same text, of which the second hides no quotient. Whatever is at the leaves
of the first, the two total to the same number, under the same references and for any steady roller, exactly
if the operations of the first hide no quotient either. -/
theorem evaluate_eq_of_text_eq_iff (e : Expr) :
    (∀ e₁ e₂ : Expr, e₁.SameShape e → NamedByLetters e₁ → NamedByLetters e₂ →
      e₂.hidesQuotient = false → text e₁ = text e₂ →
      ∀ (σ : Type) [Roller σ] (face : UInt32 → UInt32) (ready : σ → Prop) (refs : References)
        (s s' t t' : σ) (v w : Int32), Roller.Steady face ready → ready s → ready s' →
        (evaluate refs e₁).run s = .ok v t → (evaluate refs e₂).run s' = .ok w t' → v = w) ↔
      e.hidesQuotient = false := by
  constructor
  · intro alike
    rw [← Bool.not_eq_true]
    intro hides
    obtain ⟨e₁, e₂, shape, named₁, leaves, visible₂, same, v, w, apart, values⟩ :=
      exists_text_eq_of_hidesQuotient hides
    have named₂ : NamedByLetters e₂ := fun l member => named₁ l (leaves ▸ member)
    have both := values Source .none Source.highest
    exact apart (alike e₁ e₂ shape named₁ named₂ visible₂ same Source id (· = Source.highest) .none
      _ _ _ _ v w Source.steady_highest rfl rfl both.1 both.2)
  · intro visible e₁ e₂ shape named₁ named₂ visible₂ same σ _ face ready refs s s' t t' v w steady start start'
      value₁ value₂
    have visible₁ := (Formula.hidesQuotient_of_sameShape shape).trans visible
    exact shownValue_eq_of_text_eq named₁ named₂ visible₁ visible₂ same
      (shownValue_of_evaluate steady start value₁) (shownValue_of_evaluate steady start' value₂)

theorem evaluate_eq_of_text_eq_factors :
    let e₁ : Expr := .binary .product (ref "STR") (.binary .product (num 3) (die 6))
    let e₂ : Expr := .binary .product (.binary .product (ref "STR") (num 3)) (die 6)
    let refs : References := fun _ => some 2
    NamedByLetters e₁ ∧ NamedByLetters e₂ ∧ e₁.hidesQuotient = false ∧ e₂.hidesQuotient = false ∧
      text e₁ = text e₂ ∧ (evaluate refs e₁).run Source.highest = .ok 36 Source.highest ∧
      (evaluate refs e₂).run Source.highest = .ok 36 Source.highest ∧ (36 : Int32) = 36 := by
  intro e₁ e₂ refs
  have letters : (Leaf.ref "STR").NamedByLetters := ⟨by decide, by simp⟩
  have named₁ : NamedByLetters e₁ := by
    intro l member
    simp only [e₁, Formula.leaves, List.cons_append, List.nil_append, List.mem_cons, List.not_mem_nil,
      or_false] at member
    rcases member with rfl | rfl | rfl
    · exact letters
    · trivial
    · trivial
  have named₂ : NamedByLetters e₂ := named₁
  have same : text e₁ = text e₂ := (text_regroup e₁).symm
  have value₁ : (evaluate refs e₁).run Source.highest = .ok 36 Source.highest := rfl
  have value₂ : (evaluate refs e₂).run Source.highest = .ok 36 Source.highest := rfl
  have equal := (evaluate_eq_of_text_eq_iff e₁).mpr rfl e₁ e₂ (Formula.sameShape_refl e₁) named₁ named₂ rfl
    same Source id (· = Source.highest) refs _ _ _ _ _ _ Source.steady_highest rfl rfl value₁ value₂
  exact ⟨named₁, named₂, rfl, rfl, same, value₁, value₂, equal⟩

/-- Both read `2 * 1 / 2 * 3`. -/
theorem evaluate_ne_of_text_eq :
    let e₁ : Expr := .binary .product (num 2) (.binary .product (.binary .fraction (num 1) (num 2)) (num 3))
    let e₂ : Expr := .binary .product (.binary .fraction (.binary .product (num 2) (num 1)) (num 2)) (num 3)
    NamedByLetters e₁ ∧ NamedByLetters e₂ ∧ text e₁ = text e₂ ∧
      (evaluate .none e₁).run Source.highest = .ok 0 Source.highest ∧
      (evaluate .none e₂).run Source.highest = .ok 3 Source.highest := by
  intro e₁ e₂
  have named₁ : NamedByLetters e₁ := namedByLetters_numbers
    (.binary .product (.leaf 2) (.binary .product (.binary .fraction (.leaf 1) (.leaf 2)) (.leaf 3)))
  have named₂ : NamedByLetters e₂ := namedByLetters_numbers
    (.binary .product (.binary .fraction (.binary .product (.leaf 2) (.leaf 1)) (.leaf 2)) (.leaf 3))
  exact ⟨named₁, named₂, (text_regroup e₁).symm, rfl, rfl⟩

end DiceAlgebra.Expr
