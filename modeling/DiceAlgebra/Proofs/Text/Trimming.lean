import DiceAlgebra.Text.Blank
import DiceAlgebra.Text.Numeral

/-! Trimming takes the blanks off both ends and nothing else, so a number is read from the texts that write it between
blanks and from no others. -/
namespace DiceAlgebra.Text

theorem isBlank_of_isDigit {c : Char} (h : isDigit c = true) : isBlank c = false := by
  have range : 48 ≤ c.toNat ∧ c.toNat ≤ 57 := Char.isDigit_iff_toNat.mp h
  simp only [isBlank, blankRanges, List.any_cons, List.any_nil, Bool.or_false,
    Bool.or_eq_false_iff, Bool.and_eq_false_iff, decide_eq_false_iff_not]
  omega

theorem exists_append_trim (text : String) :
    ∃ before after, text.toList = before ++ (trim text).toList ++ after ∧
      ∀ c ∈ before ++ after, isBlank c = true := by
  let body := text.toList.dropWhile isBlank
  refine ⟨text.toList.takeWhile isBlank, (body.reverse.takeWhile isBlank).reverse, ?_, ?_⟩
  · have back := congrArg List.reverse (List.takeWhile_append_dropWhile (p := isBlank) (l := body.reverse))
    rw [List.reverse_append, List.reverse_reverse] at back
    rw [trim, String.toList_ofList, List.append_assoc, back, List.takeWhile_append_dropWhile]
  · intro c member
    rcases List.mem_append.mp member with front | back
    · exact List.all_eq_true.mp List.all_takeWhile c front
    · exact List.all_eq_true.mp List.all_takeWhile c (List.mem_reverse.mp back)

private theorem dropWhile_append {before core rest : List Char} (blank : ∀ c ∈ before, isBlank c = true)
    (some_char : core ≠ []) (solid : ∀ c ∈ core, isBlank c = false) :
    (before ++ (core ++ rest)).dropWhile isBlank = core ++ rest := by
  rw [List.dropWhile_append_of_pos blank]
  cases core with
  | nil => exact absurd rfl some_char
  | cons c core => exact List.dropWhile_cons_of_neg (by simp [solid c (List.mem_cons_self ..)])

theorem toList_trim_of_append {text : String} {before core after : List Char}
    (whole : text.toList = before ++ core ++ after) (blank : ∀ c ∈ before ++ after, isBlank c = true)
    (some_char : core ≠ []) (solid : ∀ c ∈ core, isBlank c = false) : (trim text).toList = core := by
  have front : ∀ c ∈ before, isBlank c = true := fun c member => blank c (List.mem_append_left _ member)
  have back : ∀ c ∈ after.reverse, isBlank c = true := fun c member =>
    blank c (List.mem_append_right _ (List.mem_reverse.mp member))
  have some_char' : core.reverse ≠ [] := by simpa using some_char
  have solid' : ∀ c ∈ core.reverse, isBlank c = false := by simpa using solid
  have from_back := @dropWhile_append _ _ [] back some_char' solid'
  rw [List.append_nil] at from_back
  rw [trim, String.toList_ofList, whole, List.append_assoc, dropWhile_append front some_char solid,
    List.reverse_append, from_back, List.reverse_reverse]

/-- Digits after an optional plus sign, and the number they stand for. -/
def IsNumeral (cs : List Char) (n : Nat) : Prop :=
  ∃ sign digits, cs = sign ++ digits ∧ (sign = [] ∨ sign = ['+']) ∧ digits ≠ [] ∧
    (∀ c ∈ digits, isDigit c = true) ∧ value digits = n

theorem natBelow?_eq_some_iff {bound n : Nat} {cs : List Char} :
    natBelow? bound cs = some n ↔ IsNumeral cs n ∧ n < bound := by
  unfold natBelow?
  constructor
  · intro read
    by_cases plus : cs.head? = some '+'
    · obtain ⟨digits, rfl⟩ := List.head?_eq_some_iff.mp plus
      simp only [List.head?_cons, List.tail_cons, if_true, Option.ite_none_right_eq_some, Option.some.injEq] at read
      obtain ⟨⟨some_digit, all, small⟩, rfl⟩ := read
      exact ⟨⟨['+'], digits, rfl, .inr rfl, some_digit, List.all_eq_true.mp all, rfl⟩, small⟩
    · simp only [if_neg plus, Option.ite_none_right_eq_some, Option.some.injEq] at read
      obtain ⟨⟨some_digit, all, small⟩, rfl⟩ := read
      exact ⟨⟨[], cs, rfl, .inl rfl, some_digit, List.all_eq_true.mp all, rfl⟩, small⟩
  · rintro ⟨⟨sign, digits, rfl, sign_eq, some_digit, all, rfl⟩, small⟩
    have read : digits ≠ [] ∧ digits.all isDigit = true ∧ value digits < bound :=
      ⟨some_digit, List.all_eq_true.mpr all, small⟩
    rcases sign_eq with rfl | rfl
    · have no_plus : ¬ ([] ++ digits).head? = some '+' := by
        intro plus
        obtain ⟨rest, rfl⟩ := List.head?_eq_some_iff.mp plus
        exact absurd (all '+' (List.mem_cons_self ..)) (by decide)
      simp only [if_neg no_plus]
      exact if_pos read
    · exact if_pos read

def IsPadded (text : String) (n : Nat) : Prop :=
  ∃ before numeral after, text.toList = before ++ numeral ++ after ∧
    (∀ c ∈ before ++ after, isBlank c = true) ∧ IsNumeral numeral n

theorem IsNumeral.solid {cs : List Char} {n : Nat} (h : IsNumeral cs n) :
    cs ≠ [] ∧ ∀ c ∈ cs, isBlank c = false := by
  obtain ⟨sign, digits, rfl, sign_eq, some_digit, all, -⟩ := h
  refine ⟨by simp [some_digit], fun c member => ?_⟩
  rcases List.mem_append.mp member with member | member
  · rcases sign_eq with rfl | rfl
    · cases member
    · rw [List.mem_singleton.mp member]
      decide
  · exact isBlank_of_isDigit (all c member)

theorem natBelow?_trim_eq_some_iff {bound n : Nat} {text : String} :
    natBelow? bound (trim text).toList = some n ↔ IsPadded text n ∧ n < bound := by
  rw [natBelow?_eq_some_iff]
  refine and_congr_left fun _ => ?_
  constructor
  · intro numeral
    obtain ⟨before, after, whole, blank⟩ := exists_append_trim text
    exact ⟨before, _, after, whole, blank, numeral⟩
  · rintro ⟨before, numeral, after, whole, blank, h⟩
    rwa [toList_trim_of_append whole blank h.solid.1 h.solid.2]

end DiceAlgebra.Text
