import DiceAlgebra.Proofs.Expr.Additive
import DiceAlgebra.Proofs.Grammar.Splitting
import DiceAlgebra.Proofs.Text.Trimming

/-! What is written reads back. The text of dice is a summand that speaks of these dice, and the blanks
between the entries of a sum are not looked at, so the sum is found again entry by entry. -/
namespace DiceAlgebra

namespace Grammar.Segment

def ofDice (d : Dice) : Segment where
  signs := [if d.count.toInt < 0 then '-' else '+']
  count := Text.digits d.count.toInt.natAbs
  die := if d.isConstant then none else some ('D', Text.digits d.faces.toNat)

theorem toList_text (d : Dice) : d.text.toList = (ofDice d).chars := by
  have digits : ∀ n, (Text.numeral n).toList = Text.digits n := fun n => String.toList_ofList
  unfold Dice.text Text.signed chars ofDice
  by_cases negative : d.count.toInt < 0 <;> by_cases constant : d.isConstant = true <;>
    simp [negative, constant, digits]

private theorem eq_of_mem_die_ofDice {d : Dice} {die : Char × List Char}
    (h : die ∈ (ofDice d).die) : die = ('D', Text.digits d.faces.toNat) := by
  change die ∈ (if d.isConstant then none else some ('D', Text.digits d.faces.toNat)) at h
  split at h
  · cases h
  · exact (Option.some.inj h).symm

theorem shaped_ofDice (d : Dice) : (ofDice d).Shaped := by
  refine ⟨?_, fun c h => Text.isDigit_of_mem_digits h, ?_, ?_⟩
  · intro c h
    rw [List.mem_singleton.mp h]
    split <;> rfl
  · intro die h
    rw [eq_of_mem_die_ofDice h]
    rfl
  · intro die h c member
    rw [eq_of_mem_die_ofDice h] at member
    exact Text.isDigit_of_mem_digits member

theorem written_ofDice (d : Dice) : (ofDice d).written = d.count.toInt.natAbs := by
  simp [written, ofDice, Text.digits_ne_nil]

theorem sides_ofDice (d : Dice) : (ofDice d).sides = d.faces.toNat := by
  have positive : d.faces.toNat ≠ 0 := Nat.one_le_iff_ne_zero.mp d.one_le_toNat_faces
  unfold Segment.sides ofDice
  by_cases constant : d.isConstant = true
  · have one := Dice.isConstant_iff.mp constant
    simp [constant, one]
  · simp [constant, positive]

theorem numbers_ofDice (d : Dice) : (ofDice d).numbers = d.numbers := by
  have minus : (ofDice d).signs.count '-' = if d.count.toInt < 0 then 1 else 0 := by
    unfold ofDice
    split <;> rfl
  unfold numbers Dice.numbers
  rw [written_ofDice, sides_ofDice, minus]
  apply Prod.ext
  · change (if (if d.count.toInt < 0 then 1 else 0) % 2 = 1 then _ else _) = d.count.toInt
    split <;> split at * <;> omega
  · rfl

theorem isSummand_ofDice (d : Dice) : (ofDice d).IsSummand := by
  refine isSummand_of_numbers (shaped_ofDice d) ?_ (numbers_ofDice d)
  unfold HasBody ofDice
  by_cases constant : d.isConstant = true <;> simp [constant, Text.digits_ne_nil]

/-- No piece of a segment holds a blank, so squeezing a text leaves its segments alone. -/
theorem isBlank_of_mem_chars {s : Segment} (shaped : s.Shaped) {c : Char} (h : c ∈ s.chars) :
    Text.isBlank c = false := by
  rcases shaped.kind c h with sign | digit | mark
  · rcases isSign_iff.mp sign with rfl | rfl <;> decide
  · exact Text.isBlank_of_isDigit digit
  · rcases isDieMark_iff.mp mark with rfl | rfl <;> decide

theorem filter_chars {s : Segment} (shaped : s.Shaped) :
    (s.chars.filter fun c => !Text.isBlank c) = s.chars :=
  List.filter_eq_self.mpr fun c h => by simp [isBlank_of_mem_chars shaped h]

end Grammar.Segment

open Grammar

theorem filter_intercalate (ss : List Segment) (shaped : ∀ s ∈ ss, s.Shaped) :
    (List.intercalate [' '] (ss.map Segment.chars)).filter (fun c => !Text.isBlank c) =
      ss.flatMap Segment.chars := by
  induction ss with
  | nil => rfl
  | cons s ss ih =>
    have rest := ih fun t h => shaped t (List.mem_cons_of_mem _ h)
    have head := Segment.filter_chars (shaped s (List.mem_cons_self ..))
    cases ss with
    | nil => simpa using head
    | cons t ss =>
      have blank : [' '].filter (fun c => !Text.isBlank c) = [] := by decide
      rw [List.map_cons, List.map_cons, List.intercalate_cons_cons, List.filter_append,
        List.filter_append, head, blank, List.append_nil, ← List.map_cons, rest]
      exact List.flatMap_cons.symm

theorem Pool.toList_text {p : Pool} (some_entry : p.entries ≠ []) :
    p.text.toList = [' '].intercalate ((p.entries.map Segment.ofDice).map Segment.chars) := by
  have entries : p.entries.map (String.toList ∘ Dice.text) =
      (p.entries.map Segment.ofDice).map Segment.chars := by
    rw [List.map_map]
    exact List.map_congr_left fun d _ => Segment.toList_text d
  have written : p.text = " ".intercalate (p.entries.map Dice.text) := by
    unfold Pool.text Pool.isEmpty
    rw [if_neg (by simpa using some_entry)]
  rw [written, String.toList_intercalate, List.map_map, entries]
  rfl

theorem toList_squeeze_text {p : Pool} (some_entry : p.entries ≠ []) :
    (Text.squeeze p.text).toList = (p.entries.map Segment.ofDice).flatMap Segment.chars := by
  rw [Text.toList_squeeze, Pool.toList_text some_entry]
  apply filter_intercalate
  intro s h
  obtain ⟨d, _, rfl⟩ := List.mem_map.mp h
  exact Segment.shaped_ofDice d

theorem numbers_entries (p : Pool) :
    ((p.entries.map Segment.ofDice).map Segment.numbers).filter (·.1 ≠ 0) =
      p.entries.map Dice.numbers := by
  have written : (p.entries.map Segment.ofDice).map Segment.numbers = p.entries.map Dice.numbers := by
    rw [List.map_map]
    exact List.map_congr_left fun d _ => Segment.numbers_ofDice d
  rw [written, ← numbers_ofList, Pool.ofList_entries]

theorem Pool.parse_text (p : Pool) : Pool.parse p.text = .ok p := by
  unfold Pool.parse
  rw [readPool_eq_ok_iff]
  cases entries : p.entries with
  | nil =>
    have empty : p = .empty := Pool.ext entries
    refine ⟨Segment.ofDice (.constant 0), [], ⟨?_, ?_, by simp⟩, ?_⟩
    · rw [empty]
      decide
    · intro s h
      rw [List.mem_singleton.mp h]
      exact Segment.isSummand_ofDice _
    · decide
  | cons d ds =>
    refine ⟨Segment.ofDice d, ds.map Segment.ofDice, ⟨?_, ?_, ?_⟩, ?_⟩
    · rw [toList_squeeze_text (by simp [entries]), entries, List.map_cons]
    · intro s h
      rw [← List.map_cons] at h
      obtain ⟨e, _, rfl⟩ := List.mem_map.mp h
      exact Segment.isSummand_ofDice e
    · intro s h
      obtain ⟨e, _, rfl⟩ := List.mem_map.mp h
      simp [Segment.ofDice]
    · rw [← List.map_cons, ← entries]
      exact (numbers_entries p).symm

theorem Dice.parse_text (d : Dice) : Dice.parse d.text = .ok d := by
  unfold Dice.parse
  rw [readDice_eq_ok_iff]
  refine ⟨Segment.ofDice d, ?_, Segment.isSummand_ofDice d, (Segment.numbers_ofDice d).symm⟩
  rw [Text.toList_squeeze, Segment.toList_text, Segment.filter_chars (Segment.shaped_ofDice d)]

namespace Expr

/-- Sums of dice and dice of one kind read back as they were, and so does whatever an additive expression
contracts to. -/
theorem parse_text_eq_ok :
    (∀ p : Pool, Expr.parse p.text = .ok (pool p)) ∧
      (∀ d : Dice, Dice.parse d.text = .ok d) ∧
      ∀ e : Expr, isAdditive e = true → Expr.parse (contract e).text = .ok (contract e) := by
  have parse_pool : ∀ p : Pool, Expr.parse p.text = .ok (pool p) := by
    intro p
    unfold Expr.parse
    rw [Pool.parse_text]
    rfl
  refine ⟨parse_pool, Dice.parse_text, ?_⟩
  intro e additive
  obtain ⟨p, flat⟩ := exists_toPool? additive
  rw [contract_eq_pool flat]
  exact parse_pool p.contract

theorem parse_text_lowest :
    isAdditive (.binary .sum (num Int32.minValue) (die 4294967295)) = true ∧
      Expr.parse (contract (.binary .sum (num Int32.minValue) (die 4294967295))).text =
        .ok (contract (.binary .sum (num Int32.minValue) (die 4294967295))) :=
  ⟨rfl, parse_text_eq_ok.2.2 _ rfl⟩

end Expr
end DiceAlgebra
