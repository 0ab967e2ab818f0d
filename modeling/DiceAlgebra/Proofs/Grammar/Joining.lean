import DiceAlgebra.Proofs.Grammar.Splitting
import Mathlib.Control.Monad.Basic

/-! Sums written one behind the other. A row of summands goes on where the next row has a sign in front, and where
it has none a plus makes one: it belongs to the first summand of that row, and does not change what it speaks of. -/
namespace DiceAlgebra

namespace Grammar

theorem Segment.IsSummand.behind_plus {s : Segment} (summand : s.IsSummand) :
    (s.behind ['+']).IsSummand ∧ (s.behind ['+']).numbers = s.numbers := by
  have same : (s.behind ['+']).numbers = s.numbers := Segment.numbers_behind ['+'] s
  have shaped : (s.behind ['+']).Shaped := summand.toShaped.behind (List.all_eq_true.mp rfl)
  obtain ⟨d, -, numbers⟩ := Segment.exists_dice summand
  exact ⟨Segment.isSummand_of_numbers shaped summand.body (same.trans numbers.symm), same⟩

namespace Splits

variable {text text' : List Char} {first first' : Segment} {more more' : List Segment}

theorem append (split : Splits text first more) (split' : Splits text' first' more') (signed : first'.signs ≠ []) :
    Splits (text ++ text') first (more ++ first' :: more') := by
  refine ⟨?_, ?_, ?_⟩
  · rw [split.text_eq, split'.text_eq, ← List.flatMap_append, List.cons_append]
  · rw [← List.cons_append]
    exact List.forall_mem_append.mpr ⟨split.summand, split'.summand⟩
  · exact List.forall_mem_append.mpr ⟨split.signed, List.forall_mem_cons.mpr ⟨signed, split'.signed⟩⟩

theorem behind_plus (split : Splits text first more) : Splits ('+' :: text) (first.behind ['+']) more := by
  obtain ⟨head, others⟩ := List.forall_mem_cons.mp split.summand
  refine ⟨?_, List.forall_mem_cons.mpr ⟨head.behind_plus.1, others⟩, split.signed⟩
  rw [split.text_eq, List.flatMap_cons, List.flatMap_cons, Segment.chars_behind]
  rfl

end Splits
end Grammar

open Grammar

private theorem Pool.parse_of_splits_append {text : String} {first first' : Segment} {more more' : List Segment}
    {p q : Pool} (split : Splits (text.toList.filter fun c => !Text.isBlank c) first (more ++ first' :: more'))
    (same : p.entries.map Dice.numbers = ((first :: more).map Segment.numbers).filter (·.1 ≠ 0))
    (same' : q.entries.map Dice.numbers = ((first' :: more').map Segment.numbers).filter (·.1 ≠ 0)) :
    Pool.parse text = .ok (p ++ q) := by
  refine parse_iff_splits.mpr ⟨first, _, split, ?_⟩
  rw [Pool.entries_append, List.map_append, same, same', ← List.cons_append, List.map_append, List.filter_append]

section Seam

variable {a b : String} {p q : Pool}

theorem Pool.parse_append_plus (left : Pool.parse a = .ok p) (right : Pool.parse b = .ok q) :
    Pool.parse (a ++ "+" ++ b) = .ok (p ++ q) := by
  obtain ⟨first, more, split, same⟩ := parse_iff_splits.mp left
  obtain ⟨first', more', split', same'⟩ := parse_iff_splits.mp right
  have turned : (first'.behind ['+'] :: more').map Segment.numbers = (first' :: more').map Segment.numbers := by
    rw [List.map_cons, List.map_cons, (split'.summand first' (List.mem_cons_self ..)).behind_plus.2]
  have plus : ("+".toList.filter fun c => !Text.isBlank c) = ['+'] := by decide
  have joined := split.append split'.behind_plus (List.cons_ne_nil _ _)
  -- the plus is not a blank, so the joined text loses its blanks on both sides of it
  rw [← List.singleton_append, ← plus, ← List.append_assoc, ← List.filter_append, ← List.filter_append,
    ← String.toList_append, ← String.toList_append] at joined
  exact parse_of_splits_append joined same (turned ▸ same')

theorem Pool.parse_append_signed (left : Pool.parse a = .ok p) (right : Pool.parse b = .ok q)
    (signed : StartsSigned (b.toList.filter fun c => !Text.isBlank c)) : Pool.parse (a ++ b) = .ok (p ++ q) := by
  obtain ⟨first, more, split, same⟩ := parse_iff_splits.mp left
  obtain ⟨first', more', split', same'⟩ := parse_iff_splits.mp right
  have joined := split.append split' (split'.startsSigned_iff.mp signed)
  rw [← List.filter_append, ← String.toList_append] at joined
  exact parse_of_splits_append joined same same'

end Seam

/-- Sums that can be read can be read as one with a plus between them, which may be left out where the second one
has a sign in front. The entries are those of the one and then those of the other. -/
theorem Expr.parse_join {a b : String} {e f : Expr} (left : Expr.parse a = .ok e) (right : Expr.parse b = .ok f) :
    ∃ p q, e = .pool p ∧ f = .pool q ∧
      Expr.parse (a ++ "+" ++ b) = .ok (.pool (p ++ q)) ∧
      ∀ c, b.toList.find? (fun c => !Text.isBlank c) = some c → isSign c = true →
        Expr.parse (a ++ b) = .ok (.pool (p ++ q)) := by
  obtain ⟨p, rfl, front⟩ := exists_pool_of_parse left
  obtain ⟨q, rfl, back⟩ := exists_pool_of_parse right
  refine ⟨p, q, rfl, rfl, parse_eq_ok_pool_iff.mpr (Pool.parse_append_plus front back), fun c head sign => ?_⟩
  have signed : StartsSigned (b.toList.filter fun c => !Text.isBlank c) := by
    refine ⟨c, ?_, sign⟩
    rw [List.head?_filter, head]
    rfl
  exact parse_eq_ok_pool_iff.mpr (Pool.parse_append_signed front back signed)

theorem Expr.parse_join_lowest :
    Expr.parse "+6D2 " = .ok (.pool (.ofList [.ofParts 6 2])) ∧
      Expr.parse " -+2147483648 + 0d6" = .ok (.pool (.ofList [.constant (-2147483648)])) ∧
      Expr.parse ("+6D2 " ++ "+" ++ " -+2147483648 + 0d6") =
        .ok (.pool (.ofList [.ofParts 6 2, .constant (-2147483648)])) ∧
      Expr.parse ("+6D2 " ++ " -+2147483648 + 0d6") =
        .ok (.pool (.ofList [.ofParts 6 2, .constant (-2147483648)])) := by
  have left : Expr.parse "+6D2 " = .ok (.pool (.ofList [.ofParts 6 2])) :=
    parse_eq_ok_pool_iff.mpr (by decide +kernel)
  have right : Expr.parse " -+2147483648 + 0d6" = .ok (.pool (.ofList [.constant (-2147483648)])) :=
    parse_eq_ok_pool_iff.mpr (by decide +kernel)
  obtain ⟨p, q, one, other, plus, signed⟩ := parse_join left right
  cases one
  cases other
  exact ⟨left, right, plus, signed '-' (by decide +kernel) (by decide)⟩

end DiceAlgebra
