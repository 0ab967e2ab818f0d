import DiceAlgebra.Proofs.Text.Characters
import Mathlib.Data.List.Forall2

/-! Texts with lists in brackets, and the texts that are left without them. Brackets count only in pairs, one closed
before the next is opened, so that what is left of texts in a row can be told one by one. -/
namespace DiceAlgebra.Text

/-- Leaves out the brackets and what is between them; the flag says whether one is open. -/
def dropLists : Bool → List Char → Option (List Char)
  | false, [] => some []
  | true, [] => none
  | false, c :: cs =>
    if c = '[' then dropLists true cs
    else if c = ']' then none
    else (dropLists false cs).map (c :: ·)
  | true, c :: cs =>
    if c = ']' then dropLists false cs
    else if c = '[' then none
    else dropLists true cs

/-- The text without its lists in brackets, provided that each bracket has its counterpart. -/
def withoutLists? (s : String) : Option String :=
  (dropLists false s.toList).map String.ofList

def Unlisted (s : String) : Prop :=
  ∀ c ∈ s.toList, c ≠ '[' ∧ c ≠ ']'

variable {s t s' t' : String}

instance : Decidable (Unlisted s) :=
  List.decidableBAll (fun c => c ≠ '[' ∧ c ≠ ']') s.toList

theorem Over.unlisted {marks : String} (chars : Over marks s) (without : Unlisted marks) : Unlisted s := by
  intro c member
  refine ⟨?_, ?_⟩
  · rintro rfl
    exact chars.not_mem (by decide) (fun mark => (without _ mark).1 rfl) member
  · rintro rfl
    exact chars.not_mem (by decide) (fun mark => (without _ mark).2 rfl) member

theorem dropLists_append {inside : Bool} {cs ds cs' ds' : List Char} (h : dropLists inside cs = some cs')
    (h' : dropLists false ds = some ds') : dropLists inside (cs ++ ds) = some (cs' ++ ds') := by
  fun_induction dropLists inside cs generalizing cs' with
  | case1 =>
    cases h
    exact h'
  | case2 => cases h
  | case3 cs ih => exact ih h
  | case4 => cases h
  | case5 c cs opening closing ih =>
    obtain ⟨rest, found, rfl⟩ := Option.map_eq_some_iff.mp h
    rw [List.cons_append, dropLists, if_neg opening, if_neg closing, ih found]
    rfl
  | case6 cs ih => exact ih h
  | case7 => cases h
  | case8 c cs closing opening ih =>
    rw [List.cons_append, dropLists, if_neg closing, if_neg opening]
    exact ih h

theorem dropLists_of_unlisted {cs : List Char} (unlisted : ∀ c ∈ cs, c ≠ '[' ∧ c ≠ ']') :
    dropLists false cs = some cs ∧ ∀ rest, dropLists true (cs ++ rest) = dropLists true rest := by
  induction cs with
  | nil => exact ⟨rfl, fun rest => rfl⟩
  | cons c cs ih =>
    obtain ⟨⟨opening, closing⟩, others⟩ := List.forall_mem_cons.mp unlisted
    obtain ⟨outside, inside⟩ := ih others
    refine ⟨?_, fun rest => ?_⟩
    · rw [dropLists, if_neg opening, if_neg closing, outside]
      rfl
    · rw [List.cons_append, dropLists, if_neg closing, if_neg opening, inside]

theorem withoutLists?_eq_some_iff : withoutLists? s = some t ↔ dropLists false s.toList = some t.toList := by
  rw [withoutLists?, Option.map_eq_some_iff]
  constructor
  · rintro ⟨cs, left, rfl⟩
    rwa [String.toList_ofList]
  · intro left
    exact ⟨_, left, String.ofList_toList⟩

theorem withoutLists?_append (h : withoutLists? s = some s') (h' : withoutLists? t = some t') :
    withoutLists? (s ++ t) = some (s' ++ t') := by
  rw [withoutLists?_eq_some_iff] at h h' ⊢
  rw [String.toList_append, String.toList_append]
  exact dropLists_append h h'

theorem withoutLists?_of_unlisted (unlisted : Unlisted s) : withoutLists? s = some s :=
  withoutLists?_eq_some_iff.mpr (dropLists_of_unlisted unlisted).1

theorem withoutLists?_around {before after : String} (unlisted : Unlisted before) (h : withoutLists? s = some s')
    (unlisted' : Unlisted after) : withoutLists? (before ++ s ++ after) = some (before ++ s' ++ after) :=
  withoutLists?_append (withoutLists?_append (withoutLists?_of_unlisted unlisted) h)
    (withoutLists?_of_unlisted unlisted')

theorem withoutLists?_listed (unlisted : Unlisted s) {list : String} (unlisted' : Unlisted list) :
    withoutLists? (s ++ ("[" ++ list ++ "]")) = some s := by
  have dropped : withoutLists? ("[" ++ list ++ "]") = some "" := by
    have closed : dropLists true "]".toList = some [] := by decide
    have opened : ("[" ++ list ++ "]").toList = '[' :: (list.toList ++ "]".toList) := by simp
    rw [withoutLists?_eq_some_iff, opened, dropLists, if_pos rfl, (dropLists_of_unlisted unlisted').2, closed]
    rfl
  have whole := withoutLists?_append (withoutLists?_of_unlisted unlisted) dropped
  rwa [String.append_empty] at whole

theorem withoutLists?_intercalate {sep : String} (unlisted : Unlisted sep) {ss ts : List String}
    (each : List.Forall₂ (fun s t => withoutLists? s = some t) ss ts) :
    withoutLists? (sep.intercalate ss) = some (sep.intercalate ts) := by
  induction each with
  | nil => rfl
  | cons head tail ih =>
    cases tail with
    | nil => simpa using head
    | cons next tail =>
      rw [String.intercalate_cons_cons, String.intercalate_cons_cons]
      exact withoutLists?_append (withoutLists?_append head (withoutLists?_of_unlisted unlisted)) ih

end DiceAlgebra.Text
