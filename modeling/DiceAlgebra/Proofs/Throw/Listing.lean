import DiceAlgebra.Proofs.Text.Characters

/-! Rolls as they are listed. A list can be read back item by item, since no item has a comma, so its text decides what
it names. It names the rolls up to the limit and how many there are past it, with one exception: where nothing is
listed the comma in front of the remainder is written all the same. -/
namespace DiceAlgebra

namespace Text

/-- The items between the brackets of a list. A list with nothing between its brackets has none. -/
structure Lists (s : String) (items : List String) : Prop where
  text : s = "[" ++ ", ".intercalate items ++ "]"
  apart : ∀ item ∈ items, ',' ∉ item.toList
  inhabited : items ≠ [""]

/-- What stands between commas, without the blank behind each of them. -/
def splitItems (cs : List Char) : List (List Char) :=
  match cs.splitOn ',' with
  | [] => []
  | first :: others => first :: others.map List.tail

theorem intercalate_comma (cs : List Char) (css : List (List Char)) :
    [',', ' '].intercalate (cs :: css) = [','].intercalate (cs :: css.map (' ' :: ·)) := by
  induction css generalizing cs with
  | nil => rfl
  | cons ds css ih =>
    rw [List.map_cons, List.intercalate_cons_cons, List.intercalate_cons_cons, List.intercalate_cons_cons_left, ih]
    simp

theorem splitItems_intercalate {css : List (List Char)} (some_item : css ≠ []) (apart : ∀ cs ∈ css, ',' ∉ cs) :
    splitItems ([',', ' '].intercalate css) = css := by
  cases css with
  | nil => exact absurd rfl some_item
  | cons cs css =>
    obtain ⟨head, tail⟩ := List.forall_mem_cons.mp apart
    have shifted : ∀ ds ∈ cs :: css.map (' ' :: ·), ',' ∉ ds := by
      simpa [head] using tail
    rw [intercalate_comma, splitItems, List.splitOn_intercalate ',' shifted (List.cons_ne_nil _ _)]
    simp [Function.comp_def]

theorem numeral_ne_empty (n : Nat) : numeral n ≠ "" := by
  rw [numeral, ne_eq, String.ofList_eq_empty_iff]
  exact digits_ne_nil n

variable {s : String} {items items' : List String}

theorem map_toList_inj : items.map String.toList = items'.map String.toList ↔ items = items' :=
  List.map_inj_right fun _ _ => String.toList_inj.mp

theorem Lists.splitItems_eq (lists : Lists s items) (some_item : items ≠ []) :
    splitItems (", ".intercalate items).toList = items.map String.toList := by
  rw [String.toList_intercalate]
  exact splitItems_intercalate (by simpa using some_item) (List.forall_mem_map.mpr lists.apart)

theorem Lists.eq_nil_iff (lists : Lists s items) : items = [] ↔ ", ".intercalate items = "" := by
  constructor
  · rintro rfl
    rfl
  · intro empty
    by_cases some_item : items = []
    · exact some_item
    · have read := lists.splitItems_eq some_item
      rw [empty] at read
      exact absurd (map_toList_inj.mp read.symm) lists.inhabited

theorem Lists.unique (lists : Lists s items) (lists' : Lists s items') : items = items' := by
  have inner : ", ".intercalate items = ", ".intercalate items' := by
    have whole := lists.text.symm.trans lists'.text
    rwa [String.append_left_inj, String.append_right_inj] at whole
  by_cases empty : items = []
  · rw [empty, eq_comm, lists'.eq_nil_iff, ← inner]
    exact lists.eq_nil_iff.mp empty
  · have some_item : items' ≠ [] := by
      rwa [ne_eq, lists'.eq_nil_iff, ← inner, ← lists.eq_nil_iff]
    have read := lists.splitItems_eq empty
    rw [inner, lists'.splitItems_eq some_item] at read
    exact (map_toList_inj.mp read).symm

end Text

namespace Throw

open Text

def shown (limit : Option Nat) (t : Throw) : List UInt32 :=
  t.rolls.take (limit.elim t.rolls.length (min · t.rolls.length))

def hidden (limit : Option Nat) (t : Throw) : Nat :=
  limit.elim 0 (t.rolls.length - ·)

/-- What a list has to name: each roll up to the limit, and the number of the others, if there are others. -/
def items (limit : Option Nat) (t : Throw) : List String :=
  (t.shown limit).map (fun roll => numeral roll.toNat) ++
    if t.hidden limit = 0 then [] else [numeral (t.hidden limit) ++ " more..."]

/-- Every roll is accounted for, by itself or in the number at the end, and no item is empty. -/
structure Accounts (limit : Option Nat) (t : Throw) : Prop where
  listed : ∃ list, t.text limit = t.dice.text ++ list ∧ Lists list (t.items limit)
  length_add : (t.shown limit).length + t.hidden limit = t.rolls.length
  items_ne_empty : ∀ item ∈ t.items limit, item ≠ ""

variable {t : Throw}

theorem length_shown_add_hidden (limit : Option Nat) (t : Throw) :
    (t.shown limit).length + t.hidden limit = t.rolls.length := by
  cases limit with
  | none => simp [shown, hidden]
  | some bound =>
    simp only [shown, hidden, Option.elim_some, List.length_take]
    omega

theorem shown_eq_take (limit : Option Nat) (t : Throw) :
    t.shown limit = t.rolls.take (limit.getD t.rolls.length) := by
  cases limit with
  | none => rfl
  | some bound => simp [shown, List.take_eq_take_iff]

theorem shown_eq_nil_and_hidden_iff (limit : Option Nat) (t : Throw) :
    t.shown limit = [] ∧ t.hidden limit ≠ 0 ↔ limit = some 0 ∧ t.rolls ≠ [] := by
  rw [← List.length_pos_iff, ← List.length_eq_zero_iff]
  cases limit with
  | none => simp [hidden]
  | some bound =>
    simp only [shown, hidden, Option.elim_some, List.length_take, Option.some.injEq]
    omega

theorem mem_items {limit : Option Nat} {item : String} (member : item ∈ t.items limit) :
    item ≠ "" ∧ ',' ∉ item.toList := by
  rcases List.mem_append.mp member with roll | remainder
  · obtain ⟨roll, -, rfl⟩ := List.mem_map.mp roll
    exact ⟨numeral_ne_empty _, (over_numeral _ : Over "" _).not_mem (by decide) (by decide)⟩
  · split at remainder
    · cases remainder
    · rw [List.mem_singleton.mp remainder]
      refine ⟨by simp [numeral_ne_empty], ?_⟩
      exact (over_append.mpr ⟨over_numeral _, by decide⟩ : Over " more." _).not_mem (by decide) (by decide)

/-- The items as they are written: where the list is cut off before the first roll, an empty one stands in front. -/
def writtenItems (limit : Option Nat) (t : Throw) : List String :=
  if limit = some 0 ∧ t.rolls ≠ [] then "" :: t.items limit else t.items limit

theorem listing_eq (limit : Option Nat) (t : Throw) :
    t.listing limit = "[" ++ ", ".intercalate (t.writtenItems limit) ++ "]" := by
  have rest : t.rolls.length - (t.shown limit).length = t.hidden limit := by
    have all := length_shown_add_hidden limit t
    omega
  unfold listing
  rw [← shown_eq_take]
  simp only [writtenItems, rest, ← shown_eq_nil_and_hidden_iff, items]
  by_cases complete : t.hidden limit = 0
  · simp [complete]
  -- the remainder has a separator of its own, which is written whether or not a roll stands in front of it
  by_cases nothing : t.shown limit = []
  · simp [complete, nothing, String.append_assoc]
  · have some_roll : (t.shown limit).map (fun roll => numeral roll.toNat) ≠ [] := by simpa using nothing
    simp [complete, nothing, String.intercalate_append_of_ne_nil some_roll, String.append_assoc]

theorem lists_listing (limit : Option Nat) (t : Throw) : Lists (t.listing limit) (t.writtenItems limit) where
  text := listing_eq limit t
  apart := by
    have named : ∀ item ∈ t.items limit, ',' ∉ item.toList := fun item member => (mem_items member).2
    unfold writtenItems
    split
    · exact List.forall_mem_cons.mpr ⟨by decide, named⟩
    · exact named
  inhabited := by
    unfold writtenItems
    split
    · next exceptional =>
      have remainder := ((shown_eq_nil_and_hidden_iff limit t).mpr exceptional).2
      simp [items, remainder]
    · intro empty
      have member : "" ∈ t.items limit := empty ▸ List.mem_singleton_self ""
      exact (mem_items member).1 rfl

theorem text_of_random (random : t.dice.isConstant = false) (limit : Option Nat) :
    t.text limit = t.dice.text ++ t.listing limit :=
  if_neg (Bool.eq_false_iff.mp random)

theorem not_accounts (random : t.dice.isConstant = false) (some_roll : t.rolls ≠ []) :
    ¬ t.Accounts (some 0) := by
  rintro ⟨⟨list, text, lists⟩, -, -⟩
  rw [text_of_random random, String.append_right_inj] at text
  have written := lists_listing (some 0) t
  rw [writtenItems, if_pos ⟨rfl, some_roll⟩, text] at written
  exact List.cons_ne_self _ _ (written.unique lists)

/-- A list accounts for every roll and has no empty items, unless it is cut off before the first roll. -/
theorem accounts_iff (random : t.dice.isConstant = false) (limit : Option Nat) :
    t.Accounts limit ↔ (limit = some 0 → t.rolls = []) := by
  constructor
  · rintro accounts rfl
    by_cases none : t.rolls = []
    · exact none
    · exact absurd accounts (not_accounts random none)
  · intro proper
    have listed := lists_listing limit t
    rw [writtenItems, if_neg fun exceptional => exceptional.2 (proper exceptional.1)] at listed
    exact ⟨⟨_, text_of_random random limit, listed⟩, length_shown_add_hidden limit t,
      fun item member => (mem_items member).1⟩

theorem accounts_iff_cut :
    let t : Throw := ⟨.ofParts 4 6, [6, 2, 5, 3]⟩
    let empty : Throw := ⟨.ofParts 4 6, []⟩
    (t.dice.isConstant = false ∧ t.text (some 2) = "+4D6[6, 2, 2 more...]" ∧ t.Accounts (some 2)) ∧
      empty.dice.isConstant = false ∧ empty.text (some 0) = "+4D6[]" ∧ empty.Accounts (some 0) :=
  ⟨⟨rfl, by decide, (accounts_iff rfl (some 2)).mpr (by simp)⟩, rfl, by decide,
    (accounts_iff rfl (some 0)).mpr fun _ => rfl⟩

/-- The comma behind the first item is there, the item is not. -/
theorem not_accounts_zero :
    let t : Throw := ⟨.ofParts 4 6, [6, 2, 5, 3]⟩
    t.dice.isConstant = false ∧ t.text (some 0) = "+4D6[, 4 more...]" ∧ ¬ t.Accounts (some 0) :=
  ⟨rfl, by decide, not_accounts rfl (List.cons_ne_nil _ _)⟩

end Throw
end DiceAlgebra
