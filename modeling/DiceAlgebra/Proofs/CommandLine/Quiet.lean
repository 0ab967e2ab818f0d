import DiceAlgebra.CommandLine
import DiceAlgebra.Proofs.Text.Characters

/-! What is told about a flat sum before its total. Signs, digits, `D` and a few words are all that is printed on the
way, and a `T` is not among them; so where no total is told, none can be read into the rest. -/
namespace DiceAlgebra

/-- The letter that the line of a total starts with does not occur. -/
def Text.Quiet (s : String) : Prop :=
  'T' ∉ s.toList

namespace Text

instance (s : String) : Decidable (Quiet s) :=
  inferInstanceAs (Decidable ('T' ∉ s.toList))

@[simp] theorem quiet_append {s t : String} : Quiet (s ++ t) ↔ Quiet s ∧ Quiet t := by
  simp [Quiet, not_or]

theorem Over.quiet {marks s : String} (chars : Over marks s) (without : 'T' ∉ marks.toList) : Quiet s :=
  chars.not_mem (by decide) without

theorem quiet_of_isDigit {cs : List Char} (h : ∀ c ∈ cs, isDigit c = true) : Quiet (String.ofList cs) := by
  rw [Quiet, String.toList_ofList]
  intro member
  exact absurd (h 'T' member) (by decide)

@[simp] theorem quiet_numeral (n : Nat) : Quiet (numeral n) :=
  quiet_of_isDigit fun _ => isDigit_of_mem_digits

theorem quiet_join {ss : List String} (each : ∀ s ∈ ss, Quiet s) : Quiet (String.join ss) := by
  rw [Quiet, String.toList_join, List.mem_flatMap]
  rintro ⟨s, member, letter⟩
  exact each s member letter

end Text

open Text

theorem Pool.quiet_text (p : Pool) : Quiet p.text :=
  p.over_text.quiet (by decide)

theorem Outcome.quiet_text (limit : Option Nat) (ts : List Throw) : Quiet ((pool ts).text limit) := by
  change Quiet (if ts.isEmpty then "+0" else " ".intercalate (ts.map (Throw.text limit)))
  have throws : ∀ s ∈ ts.map (Throw.text limit), Over "+-D[], more." s := by
    intro s member
    obtain ⟨t, -, rfl⟩ := List.mem_map.mp member
    exact t.over_text limit
  split
  · decide
  · exact (over_intercalate (by decide) throws).quiet (by decide)

theorem Decimal.quiet_positional (digits : Nat) (exponent : Int) : Quiet (positional digits exponent) := by
  unfold positional
  split
  · exact quiet_numeral _
  · refine quiet_append.mpr ⟨by simp +decide, quiet_of_isDigit fun c member => ?_⟩
    rcases List.mem_append.mp member with zero | digit
    · rw [List.eq_of_mem_replicate zero]
      decide
    · exact isDigit_of_mem_digits digit

theorem Decimal.quiet_text (x : Float) : Quiet (Decimal.text x) := by
  have sign : ∀ bits : UInt64, Quiet (if bits < 0x8000000000000000 then "" else "-") := by
    intro bits
    split <;> decide
  unfold Decimal.text
  split
  · decide
  · dsimp only
    split
    · exact quiet_append.mpr ⟨sign _, by decide⟩
    · split
      · exact quiet_append.mpr ⟨sign _, by decide⟩
      · exact quiet_append.mpr ⟨sign _, quiet_positional _ _⟩

namespace CommandLine

theorem quiet_lines {ls : List String} (each : ∀ l ∈ ls, Quiet l) : Quiet (lines ls) := by
  refine quiet_join fun s member => ?_
  obtain ⟨l, among, rfl⟩ := List.mem_map.mp member
  exact quiet_append.mpr ⟨each l among, by decide⟩

theorem quiet_summary (p : Pool) : ∀ l ∈ summary (.pool p), Quiet l := by
  have average : Quiet ((Expr.average? (Expr.contract (.pool p))).elim "unknown" Decimal.text) := by
    cases Expr.average? (Expr.contract (.pool p)) with
    | none => decide
    | some x => exact Decimal.quiet_text x
  have parsed : Quiet (Expr.text (.pool p)) := p.quiet_text
  have contracted : Quiet (Expr.contract (.pool p)).text := p.contract.quiet_text
  simp +decide [summary, parsed, contracted, average]

end CommandLine
end DiceAlgebra
