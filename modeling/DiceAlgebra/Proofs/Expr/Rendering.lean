import DiceAlgebra.Proofs.Expr.Chance
import DiceAlgebra.Proofs.Text.Brackets

/-! How outcomes are written. An outcome has the text of its expression, with a list in brackets behind each die and
each reference. Whether an operand is put in parentheses is decided by the outermost operation and by how many
entries a pool has, and neither changes when the dice are thrown. -/
namespace DiceAlgebra

open Text

namespace Formula

variable {α β : Type} {R : α → β → Prop} {x : Formula α} {y : Formula β}

theorem Forall₂.hasRoot_eq (related : Forall₂ R x y) (op : BinaryOp) : y.hasRoot op = x.hasRoot op := by
  cases related <;> rfl

/-- Leaves that differ in lists only, and hold together as tightly. -/
structure ListedAs (style : LeafStyle α) (style' : LeafStyle β) (a : α) (b : β) : Prop where
  text : withoutLists? (style'.text b) = some (style.text a)
  precedence : style'.precedence b = style.precedence a

variable {style : LeafStyle α} {style' : LeafStyle β}

theorem Forall₂.precedence_eq (related : Forall₂ (ListedAs style style') x y) :
    y.precedence style' = x.precedence style := by
  cases related with
  | leaf h => exact h.precedence
  | unary op _ => rfl
  | binary op _ _ => rfl

theorem withoutLists?_enclose {s s' : String} (wrap : Bool) (h : withoutLists? s = some s') :
    withoutLists? (enclose wrap s) = some (enclose wrap s') := by
  cases wrap with
  | false => exact h
  | true => exact withoutLists?_around (by decide) h (by decide)

/-- Names and symbols have no brackets, and parentheses are set by what the leaves have in common. -/
theorem withoutLists?_render (related : Forall₂ (ListedAs style style') x y) :
    withoutLists? (y.render style') = some (x.render style) := by
  induction related with
  | leaf h => exact h.text
  | unary op _ ih =>
    have opening : Unlisted (op.name ++ "(") := by cases op <;> decide
    exact withoutLists?_around opening ih (by decide)
  | @binary op a b c d left right iha ihb =>
    unfold render
    cases spelling : op.spelling with
    | call name =>
      have opening : Unlisted (name ++ "(") := by cases op <;> cases spelling <;> decide
      have first := withoutLists?_around opening iha (by decide : Unlisted ", ")
      exact withoutLists?_append (withoutLists?_append first ihb) (withoutLists?_of_unlisted (by decide))
    | between symbol =>
      have infixed : Unlisted (" " ++ symbol ++ " ") := by cases op <;> cases spelling <;> decide
      have first := withoutLists?_enclose (op.wrapsLeft (a.precedence style)) iha
      have second := withoutLists?_enclose (op.wrapsRight (b.precedence style) (b.hasRoot op)) ihb
      have whole := withoutLists?_append (withoutLists?_append first (withoutLists?_of_unlisted infixed)) second
      rw [← String.append_assoc, ← String.append_assoc, ← String.append_assoc, ← String.append_assoc] at whole
      -- both printers ask the same of the operands before they set parentheses
      rwa [left.precedence_eq, right.precedence_eq, right.hasRoot_eq]

end Formula

theorem Throw.Of.withoutLists?_text {d : Dice} {t : Throw} (thrown : Throw.Of d t) (limit : Option Nat) :
    withoutLists? (t.text limit) = some d.text := by
  have written : Unlisted d.text := d.over_text.unlisted (by decide)
  unfold Throw.text
  rw [thrown.dice]
  split
  · exact withoutLists?_of_unlisted written
  · obtain ⟨body, listing, chars⟩ := t.exists_listing_eq limit
    rw [listing]
    exact withoutLists?_listed written (chars.unlisted (by decide))

namespace Expr

variable {refs : References}

/-- A name that brackets cannot be mistaken in, and a die that is not written as a constant once it is thrown. -/
def Leaf.Recognizable : Leaf → Prop
  | ref name => Unlisted name
  | die faces => 2 ≤ faces
  | num _ | pool _ => True

theorem Leaf.ThrownAs.precedence_eq {l : Leaf} {o : Outcome.Leaf} (thrown : l.ThrownAs refs o) :
    o.precedence = l.precedence := by
  cases thrown with
  | @pool p ts each =>
    change (if 1 < ts.length then _ else _) = if 1 < p.entries.length then _ else _
    rw [each.length_eq]
  | die _ => rfl
  | num _ => rfl
  | ref _ => rfl

theorem withoutLists?_die {faces : UInt32} {t : Throw} (thrown : Throw.Of (.die faces) t) (several : 2 ≤ faces)
    (limit : Option Nat) : withoutLists? ((Outcome.Leaf.die t).text limit) = some (Leaf.die faces).text := by
  have varying : ¬ (Dice.die faces).isConstant = true := by
    rwa [isConstant_die, UInt32.not_lt]
  have written : t.dice.faces = faces := by
    rw [thrown.dice, Dice.die, Dice.ofParts_faces]
    exact if_pos (UInt32.lt_of_lt_of_le (by decide) several)
  have unlisted : Unlisted ("d" ++ numeral faces.toNat) :=
    Over.unlisted (over_append.mpr ⟨by decide, over_numeral _⟩) (by decide : Unlisted "d")
  obtain ⟨body, listing, chars⟩ := t.exists_listing_eq limit
  have text : (Outcome.Leaf.die t).text limit = "d" ++ numeral faces.toNat ++ ("[" ++ body ++ "]") := by
    rw [← listing, ← written]
    exact if_neg (by rwa [thrown.dice])
  rw [text]
  exact withoutLists?_listed unlisted (chars.unlisted (by decide))

theorem withoutLists?_pool {p : Pool} {ts : List Throw} (each : List.Forall₂ Throw.Of p.entries ts)
    (limit : Option Nat) : withoutLists? ((Outcome.Leaf.pool ts).text limit) = some (Leaf.pool p).text := by
  have entries : List.Forall₂ (fun s t => withoutLists? s = some t) (ts.map (Throw.text limit))
      (p.entries.map Dice.text) := by
    rw [List.forall₂_map_left_iff, List.forall₂_map_right_iff]
    exact each.flip.imp fun _ _ thrown => thrown.withoutLists?_text limit
  have empty : ts.isEmpty = p.entries.isEmpty := by
    rw [Bool.eq_iff_iff, List.isEmpty_iff_length_eq_zero, List.isEmpty_iff_length_eq_zero, each.length_eq]
  change withoutLists? (if ts.isEmpty then "+0" else " ".intercalate (ts.map (Throw.text limit))) =
    some (if p.entries.isEmpty then "+0" else " ".intercalate (p.entries.map Dice.text))
  rw [empty]
  split
  · exact withoutLists?_of_unlisted (by decide)
  · exact withoutLists?_intercalate (by decide) entries

theorem Leaf.ThrownAs.withoutLists?_text {l : Leaf} {o : Outcome.Leaf} (thrown : l.ThrownAs refs o)
    (recognizable : l.Recognizable) (limit : Option Nat) : withoutLists? (o.text limit) = some l.text := by
  cases thrown with
  | die thrown => exact withoutLists?_die thrown recognizable limit
  | num value => exact withoutLists?_of_unlisted ((over_integer _).unlisted (by decide))
  | @ref name value known =>
    have text : (Outcome.Leaf.ref name value).text limit = name ++ ("[" ++ integer value.toInt ++ "]") := by
      rw [← String.append_assoc, ← String.append_assoc]
      rfl
    rw [text]
    exact withoutLists?_listed recognizable ((over_integer _).unlisted (by decide))
  | pool each => exact withoutLists?_pool each limit

/-- Without the lists of what was thrown and looked up, the text of an outcome is that of its expression. -/
theorem withoutLists?_text_of_run {σ : Type} [Roller σ] {e : Expr} {s t : σ} {o : Outcome}
    (names : ∀ name, .ref name ∈ e.leaves → ∀ c ∈ name.toList, c ≠ '[' ∧ c ≠ ']')
    (dice : ∀ faces, .die faces ∈ e.leaves → 2 ≤ faces) (run : (roll refs e).run s = .ok o t)
    (limit : Option Nat) : withoutLists? (o.text limit) = some e.text := by
  have thrown := (shows_and_thrown_of_run run).2
  refine Formula.withoutLists?_render (thrown.imp fun l member o thrown => ?_)
  have recognizable : l.Recognizable := by
    cases l with
    | die faces => exact dice faces member
    | ref name => exact names name member
    | num value => trivial
    | pool p => trivial
  exact ⟨thrown.withoutLists?_text recognizable limit, thrown.precedence_eq⟩

theorem withoutLists?_text_of_run_product :
    let e : Expr := .binary .product (pool (.ofList [.ofParts 2 6, .constant 3]))
      (.unary .abs (.binary .difference (ref "STR") (die 8)))
    let refs : References := fun name => if name = "STR" then some (-4) else none
    e.text = "(+2D6 +3) * abs(STR - d8)" ∧
      ∃ o : Outcome, (roll refs e).run (Source.script [2, 5, 7]) = .ok o (.script []) ∧
        o.text (some 1) = "(+2D6[2, 1 more...] +3) * abs(STR[-4] - d8[7])" ∧
        withoutLists? (o.text (some 1)) = some e.text := by
  intro e refs
  have names : ∀ name, .ref name ∈ e.leaves → ∀ c ∈ name.toList, c ≠ '[' ∧ c ≠ ']' := by
    simp [e, Formula.leaves]
  have dice : ∀ faces, .die faces ∈ e.leaves → 2 ≤ faces := by
    simp only [e, Formula.leaves, List.mem_append, List.mem_singleton, reduceCtorEq, false_or, Leaf.die.injEq]
    rintro faces rfl
    decide
  exact ⟨by decide, _, rfl, by decide, @withoutLists?_text_of_run refs Source _ e (.script [2, 5, 7]) (.script []) _
    names dice rfl (some 1)⟩

end Expr
end DiceAlgebra
