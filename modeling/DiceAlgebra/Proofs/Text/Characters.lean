import DiceAlgebra.Pool.Basic

/-! What texts are made of. Numbers and dice are written in digits and a few marks, so that other characters do not
occur in them. -/
namespace DiceAlgebra

namespace Text

/-- Nothing but digits and the marks occurs. -/
def Over (marks s : String) : Prop :=
  ∀ c ∈ s.toList, isDigit c = true ∨ c ∈ marks.toList

variable {marks s : String}

instance : Decidable (Over marks s) :=
  List.decidableBAll (fun c => isDigit c = true ∨ c ∈ marks.toList) s.toList

theorem Over.not_mem {c : Char} (chars : Over marks s) (not_digit : isDigit c = false)
    (not_mark : c ∉ marks.toList) : c ∉ s.toList := by
  intro member
  rcases chars c member with digit | mark
  · exact absurd digit (Bool.eq_false_iff.mp not_digit)
  · exact not_mark mark

theorem Over.mono {marks' : String} (chars : Over marks s) (more : marks.toList ⊆ marks'.toList) : Over marks' s :=
  fun c member => (chars c member).imp_right fun mark => more mark

@[simp] theorem over_append {t : String} : Over marks (s ++ t) ↔ Over marks s ∧ Over marks t := by
  simp only [Over, String.toList_append, List.forall_mem_append]

theorem over_intercalate {sep : String} {ss : List String} (between : Over marks sep)
    (each : ∀ s ∈ ss, Over marks s) : Over marks (sep.intercalate ss) := by
  induction ss with
  | nil => exact fun c member => absurd member List.not_mem_nil
  | cons s ss ih =>
    obtain ⟨head, tail⟩ := List.forall_mem_cons.mp each
    cases ss with
    | nil => simpa [Over] using head
    | cons t ss =>
      rw [String.intercalate_cons_cons, over_append, over_append]
      exact ⟨⟨head, between⟩, ih tail⟩

@[simp] theorem over_numeral (n : Nat) : Over marks (numeral n) := by
  intro c member
  rw [numeral, String.toList_ofList] at member
  exact .inl (isDigit_of_mem_digits member)

theorem over_signed (n : Int) : Over "+-" (signed n) := by
  unfold signed
  split <;> exact over_append.mpr ⟨by decide, over_numeral _⟩

theorem over_integer (n : Int) : Over "-" (integer n) := by
  unfold integer
  split
  · exact over_append.mpr ⟨by decide, over_numeral _⟩
  · exact over_numeral _

end Text

open Text

theorem Dice.over_text (d : Dice) : Over "+-D" d.text := by
  have sign := (over_signed d.count.toInt).mono (by decide : "+-".toList ⊆ "+-D".toList)
  unfold Dice.text
  split
  · exact over_append.mpr ⟨sign, by decide⟩
  · exact over_append.mpr ⟨sign, over_append.mpr ⟨by decide, over_numeral _⟩⟩

theorem Pool.over_text (p : Pool) : Over "+-D " p.text := by
  unfold Pool.text
  split
  · decide
  · refine over_intercalate (by decide) fun s member => ?_
    obtain ⟨d, -, rfl⟩ := List.mem_map.mp member
    exact d.over_text.mono (by decide)

theorem Throw.exists_listing_eq (limit : Option Nat) (t : Throw) :
    ∃ body, t.listing limit = "[" ++ body ++ "]" ∧ Over ", more." body := by
  have shown : ∀ rolls : List UInt32, Over ", more." (", ".intercalate (rolls.map fun roll => numeral roll.toNat)) :=
    fun rolls => over_intercalate (by decide) (by simp)
  have remainder : ∀ hidden : Nat,
      Over ", more." (if hidden = 0 then "" else ", " ++ numeral hidden ++ " more...") := by
    intro hidden
    split <;> simp +decide
  unfold Throw.listing
  dsimp only
  exact ⟨_, by rw [← String.append_assoc], over_append.mpr ⟨shown _, remainder _⟩⟩

theorem Throw.over_text (limit : Option Nat) (t : Throw) : Over "+-D[], more." (t.text limit) := by
  have dice := t.dice.over_text.mono (by decide : "+-D".toList ⊆ "+-D[], more.".toList)
  obtain ⟨body, listing, chars⟩ := t.exists_listing_eq limit
  unfold Throw.text
  split
  · exact dice
  · rw [listing]
    simp +decide [dice, chars.mono (by decide : ", more.".toList ⊆ "+-D[], more.".toList)]

end DiceAlgebra
