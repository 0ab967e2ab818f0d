import DiceAlgebra.Proofs.Grammar.Splitting
import Mathlib.Data.List.Infix

/-! The cut of a text is the greedy one. Every segment in it is the longest that stands at its place, and
it ends at a character that neither goes on with the last segment nor begins another. This tells the cut
apart from all other ways to divide the text, so it can stand for the cut in a statement.

All rests on `scan_chars`: wherever a segment stands, the scan goes through it as a whole. -/
namespace DiceAlgebra.Grammar

namespace Segment

structure Longest (s : Segment) (text : List Char) : Prop where
  shaped : s.Shaped
  front : s.chars <+: text
  longest : ∀ t : Segment, t.Shaped → t.chars <+: text → t.chars.length ≤ s.chars.length

theorem longest_cut (text : List Char) : (cut .sum text).first.Longest text := by
  obtain ⟨whole, shaped, -⟩ := cut_spec .sum text
  rw [Cut.segments, List.flatMap_cons, List.append_assoc] at whole
  refine ⟨shaped _ (List.mem_cons_self ..), ⟨_, whole⟩, ?_⟩
  rintro t standing ⟨after, rfl⟩
  rw [cut, scan_chars (.inl rfl) standing]
  exact (prefix_scan .sum t after).1.length_le

theorem eq_of_chars_eq {s t : Segment} (hs : s.Shaped) (ht : t.Shaped) (same : s.chars = t.chars) :
    s = t := by
  have gone := scan_chars (.inl rfl) hs []
  rw [same, scan_chars (.inl rfl) ht] at gone
  exact (congrArg Cut.first gone).symm

theorem longest_iff {s : Segment} {text : List Char} : s.Longest text ↔ s = (cut .sum text).first := by
  have cut := longest_cut text
  constructor
  · intro h
    have below : s.chars.length ≤ _ := cut.longest s h.shaped h.front
    have above : _ ≤ s.chars.length := h.longest _ cut.shaped cut.front
    have front := List.prefix_of_prefix_length_le h.front cut.front below
    exact eq_of_chars_eq h.shaped cut.shaped (front.eq_of_length (Nat.le_antisymm below above))
  · rintro rfl
    exact cut

end Segment

/-- Segments taken off a text one after the other, each the longest there is and each with a sign in
front, for as long as the text goes on with a sign. -/
inductive Greedy : List Char → List Segment → List Char → Prop
  | stop {text : List Char} (unsigned : ∀ c ∈ text.head?, isSign c = false) : Greedy text [] text
  | step {s : Segment} {more : List Segment} {after rest : List Char} (signed : s.signs ≠ [])
      (longest : s.Longest (s.chars ++ after)) (later : Greedy after more rest) :
      Greedy (s.chars ++ after) (s :: more) rest

theorem Greedy.unique {text rest rest' : List Char} {more more' : List Segment} (h : Greedy text more rest)
    (h' : Greedy text more' rest') : more = more' ∧ rest = rest' := by
  -- a row of these is empty or begins with a sign, so the text tells which of the two it is
  have clash {s : Segment} {after : List Char} (signed : s.signs ≠ []) (longest : s.Longest (s.chars ++ after))
      (unsigned : ∀ c ∈ (s.chars ++ after).head?, isSign c = false) : False := by
    obtain ⟨c, head, sign⟩ := longest.shaped.startsSigned signed after
    simp [unsigned c head] at sign
  induction h generalizing more' with
  | @stop text unsigned =>
    cases h' with
    | stop => exact ⟨rfl, rfl⟩
    | step signed longest later => exact (clash signed longest unsigned).elim
  | @step s more after rest signed longest later ih =>
    generalize whole : s.chars ++ after = text at h'
    cases h' with
    | stop unsigned => exact (clash signed longest (whole ▸ unsigned)).elim
    | @step s' more' after' rest' signed' longest' later' =>
      rw [whole] at longest
      have same : s = s' := (Segment.longest_iff.mp longest).trans (Segment.longest_iff.mp longest').symm
      subst same
      obtain rfl := List.append_cancel_left whole
      obtain ⟨rfl, rfl⟩ := ih later'
      exact ⟨rfl, rfl⟩

theorem greedy_scan (s : Segment) (text : List Char) :
    ∃ after, s.chars ++ text = (scan .sum s text).first.chars ++ after ∧
      Greedy after (scan .sum s text).more (scan .sum s text).rest := by
  fun_induction scan .sum s text with
  | case1 s => exact ⟨[], rfl, .stop (by simp)⟩
  | case2 s c cs stuck =>
    -- a sum takes signs at every stage, so it is not a sign that it is stuck at
    have takes : .sign ∈ Form.next .sum s.stage := by cases s.stage <;> decide
    have unsigned : isSign c = false := Bool.eq_false_iff.mpr fun sign =>
      Kind.not_mem_of_find?_eq_none stuck .sign takes (mem_signChars_iff.mpr sign)
    exact ⟨c :: cs, rfl, .stop (by simpa using unsigned)⟩
  | case3 s c cs kind found begins ih =>
    obtain rfl := Stage.eq_sign_of_begins begins
    obtain ⟨-, member⟩ := Kind.of_find?_eq found
    obtain ⟨after, whole, later⟩ := ih
    -- from this sign on the text is cut as if it stood alone
    have longest := Segment.longest_cut (c :: cs)
    rw [cut_sign (mem_signChars_iff.mp member)] at longest
    have whole : c :: cs = _ := whole
    rw [whole] at longest
    refine ⟨c :: cs, rfl, ?_⟩
    rw [whole]
    exact .step (signs_scan_ne_nil (List.cons_ne_nil c [])) longest later
  | case4 s c cs kind found goes ih =>
    obtain ⟨fits, -⟩ := Kind.of_find?_eq found
    obtain ⟨after, whole, later⟩ := ih
    rw [Segment.chars_add fits (Bool.eq_false_iff.mpr goes), List.append_assoc] at whole
    exact ⟨after, whole, later⟩

namespace Cut

/-- A text cut greedily: the longest segment first, with or without signs, and then longest segments with
signs up to the first character that fits nowhere. -/
def IsGreedy (c : Cut) (text : List Char) : Prop :=
  ∃ after, text = c.first.chars ++ after ∧ c.first.Longest text ∧ Greedy after c.more c.rest

/-- There is one such cut, the one that the reader makes. -/
theorem isGreedy_iff {c : Cut} {text : List Char} : c.IsGreedy text ↔ c = cut .sum text := by
  obtain ⟨after, whole, greedy⟩ := greedy_scan .empty text
  constructor
  · obtain ⟨first, more, rest⟩ := c
    rintro ⟨after', divided, longest, later⟩
    obtain rfl : first = (cut .sum text).first := Segment.longest_iff.mp longest
    obtain rfl : after' = after := List.append_cancel_left (divided.symm.trans whole)
    obtain ⟨rfl, rfl⟩ := later.unique greedy
    rfl
  · rintro rfl
    exact ⟨after, whole, Segment.longest_cut text, greedy⟩

end Cut
end DiceAlgebra.Grammar
