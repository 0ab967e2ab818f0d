import DiceAlgebra.Proofs.Formula.Context
import DiceAlgebra.Proofs.Roller.Asking

/-! What settling does to an expression, and what it leaves alone. It throws the dice of the outermost parts marked
as rolled, from left to right, and puts numbers in their places. No mark is left then, and where there are no marks
nothing is thrown and nothing changes. -/
namespace DiceAlgebra.Expr

variable {refs : References}

/-- The outermost parts that are marked as rolled, from left to right. -/
def markedParts : Expr → List Expr
  | .leaf _ => []
  | .unary .rolled x => [x]
  | .unary .abs x => markedParts x
  | .binary _ a b => markedParts a ++ markedParts b

/-- Each of the outermost marked parts has given way to the number that it comes to on the values shown for it, those
for the leftmost part first. All else is as it was. -/
inductive SettledBy (refs : References) : Expr → List UInt32 → Expr → Prop where
  | leaf (l : Leaf) : SettledBy refs (.leaf l) [] (.leaf l)
  | rolled {x : Expr} {shown : List UInt32} {v : Int32} :
    (evaluate refs x).run (Source.script shown) = .ok v (.script []) →
      SettledBy refs (.unary .rolled x) shown (num v)
  | abs {x y : Expr} {shown : List UInt32} : SettledBy refs x shown y →
    SettledBy refs (.unary .abs x) shown (.unary .abs y)
  | binary (op : BinaryOp) {a b c d : Expr} {first second : List UInt32} : SettledBy refs a first c →
    SettledBy refs b second d → SettledBy refs (.binary op a b) (first ++ second) (.binary op c d)

theorem asks_settle (refs : References) (e : Expr) :
    Asks (fun σ _ => settle (σ := σ) refs e) ((markedParts e).flatMap toThrow) := by
  induction e with
  | leaf l => exact asks_pure _
  | unary op x ih =>
    cases op with
    | rolled =>
      rw [markedParts, List.flatMap_singleton]
      exact (asks_evaluate refs x).map num
    | abs => exact ih.map (Formula.unary .abs)
  | binary op a b iha ihb =>
    rw [markedParts, List.flatMap_append]
    exact iha.bind fun c => ihb.map (Formula.binary op c)

theorem settledBy_of_run {e e' : Expr} {shown : List UInt32}
    (h : (settle refs e).run (Source.script shown) = .ok e' (.script [])) : SettledBy refs e shown e' := by
  induction e generalizing e' shown with
  | leaf l =>
    cases h
    exact .leaf l
  | unary op x ih =>
    cases op with
    | rolled =>
      obtain ⟨v, evaluated, rfl⟩ := run_map_eq_ok.mp h
      exact .rolled evaluated
    | abs =>
      obtain ⟨y, settled, rfl⟩ := run_map_eq_ok.mp h
      exact .abs (ih settled)
  | binary op a b iha ihb =>
    obtain ⟨c, u, settled_a, h⟩ := run_bind_eq_ok.mp h
    obtain ⟨d, u', settled_b, h⟩ := run_bind_eq_ok.mp h
    cases h
    -- the left operand has taken its values off the front
    obtain ⟨first, second, rfl, rfl, -, settled_a⟩ := (asks_settle refs a).run_script_iff.mp settled_a
    exact .binary op (iha settled_a) (ihb settled_b)

section Unmarked

theorem SettledBy.markedParts_eq_nil {e e' : Expr} {shown : List UInt32} (h : SettledBy refs e shown e') :
    markedParts e' = [] := by
  induction h with
  | leaf l => rfl
  | rolled evaluated => rfl
  | abs settled ih => exact ih
  | binary op settled_a settled_b iha ihb => rw [markedParts, iha, ihb, List.append_nil]

theorem fill_rolled_ne {e : Expr} (unmarked : markedParts e = []) (c : Formula.Context Leaf) (x : Expr) :
    c.fill (.unary .rolled x) ≠ e := by
  rintro rfl
  have part : markedParts (.unary .rolled x) = [] := by
    refine Formula.Context.of_fill (P := fun y : Expr => markedParts y = []) ?_ ?_ ?_ unmarked
    · intro op y h
      cases op with
      | rolled => cases h
      | abs => exact h
    · exact fun h => (List.append_eq_nil_iff.mp h).1
    · exact fun h => (List.append_eq_nil_iff.mp h).2
  cases part

theorem run_settle_of_unmarked {σ : Type} [Roller σ] {e : Expr} (unmarked : markedParts e = []) (s : σ) :
    (settle refs e).run s = .ok e s := by
  induction e with
  | leaf l => rfl
  | unary op x ih =>
    cases op with
    | rolled => cases unmarked
    | abs => exact run_map_eq_ok.mpr ⟨x, ih unmarked, rfl⟩
  | binary op a b iha ihb =>
    rcases List.append_eq_nil_iff.mp unmarked with ⟨unmarked_a, unmarked_b⟩
    exact run_bind_eq_ok.mpr ⟨a, s, iha unmarked_a, run_bind_eq_ok.mpr ⟨b, s, ihb unmarked_b, rfl⟩⟩

end Unmarked

/-- What is settled is the expression with a number for each outermost part that was marked, each of them evaluated
on what the roller has shown for it. The roller was asked for the dice of these parts, from left to right, and for
no others. No mark is left, so settling once more changes nothing and asks for nothing, with any roller. -/
theorem settle_marked_parts {σ : Type} [Roller σ] {e e' : Expr} {s t : σ} (h : (settle refs e).run s = .ok e' t) :
    (∃ shown, Roller.Shows ((markedParts e).flatMap toThrow) shown s t ∧ SettledBy refs e shown e') ∧
      (∀ (c : Formula.Context Leaf) (x : Expr), c.fill (.unary .rolled x) ≠ e') ∧
      ∀ (σ' : Type) [Roller σ'] (refs' : References) (s' : σ'), (settle refs' e').run s' = .ok e' s' := by
  obtain ⟨shown, shows, read⟩ := (asks_settle refs e σ s t e').mp h
  have settled : SettledBy refs e shown e' := settledBy_of_run read
  have unmarked : markedParts e' = [] := settled.markedParts_eq_nil
  exact ⟨⟨shown, shows, settled⟩, fill_rolled_ne unmarked, fun σ' _ refs' s' => run_settle_of_unmarked unmarked s'⟩

/-- Two marked parts, the second one with another mark inside. The dice outside of them are not thrown, and the last
two values of the script are left. -/
theorem settle_marked_parts_script :
    let p : Pool := .ofList [.ofParts 2 6, .ofParts (-1) 8]
    let x : Expr := .binary .sum (die 20) (.unary .rolled (num 2))
    let e : Expr := .binary .product (.unary .abs (.binary .difference (die 4) (.unary .rolled (pool p))))
      (.binary .max (.unary .rolled x) (ref "STR"))
    let e' : Expr := .binary .product (.unary .abs (.binary .difference (die 4) (num 7)))
      (.binary .max (num 19) (ref "STR"))
    let start := Source.script [3, 5, 1, 17, 9, 9]
    (settle References.none e).run start = .ok e' (.script [9, 9]) ∧
      (∃ shown, Roller.Shows [6, 6, 8, 20] shown start (.script [9, 9]) ∧ SettledBy References.none e shown e') ∧
      (∀ (c : Formula.Context Leaf) (y : Expr), c.fill (.unary .rolled y) ≠ e') ∧
      ∀ (σ : Type) [Roller σ] (refs : References) (s : σ), (settle refs e').run s = .ok e' s := by
  intro p x e e' start
  have settled : (settle References.none e).run start = .ok e' (.script [9, 9]) := rfl
  exact ⟨settled, settle_marked_parts settled⟩

end DiceAlgebra.Expr
