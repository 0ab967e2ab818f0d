import DiceAlgebra.Journal
import DiceAlgebra.Proofs.Expr.NormalForm
import DiceAlgebra.Proofs.Pool.RoundTrip

/-! What contraction tells the journal. Each largest additive part is merged once and makes one line, from left to
right; bare operands are left alone and make none. A second contraction finds the same parts in the same places, merged
already, and so it tells the second half of each line twice. -/
namespace DiceAlgebra

def Event.line (v : Event) : Level × String :=
  (v.level, v.message)

def mergeLine (texts : String × String) : Level × String :=
  (.trace, "contracted \"" ++ texts.1 ++ "\" into \"" ++ texts.2 ++ "\"")

namespace Expr

/-- The largest additive parts, but for dice and numbers that are mere operands. -/
def mergedParts (e : Expr) : List Expr :=
  (flatParts e).filter fun x => !isBare x || decide (x = e)

def merges (e : Expr) : List Pool :=
  (mergedParts e).filterMap toPool?

def operandMerges (x : Expr) : List Pool :=
  if isBare x then [] else merges x

section Parts

variable {e x : Expr} {p : Pool}

theorem isAdditive_of_mem_flatParts (member : x ∈ flatParts e) : isAdditive x = true := by
  induction e using contraction_induction with
  | additive e p additive _ =>
    rw [flatParts_of_isAdditive additive] at member
    rwa [List.mem_singleton.mp member]
  | reference name => cases member
  | unary op y ih => exact ih member
  | binary op a b apart iha ihb =>
    rw [flatParts_binary apart] at member
    exact (List.mem_append.mp member).elim iha ihb

theorem mergedParts_of_isAdditive (additive : isAdditive e = true) : mergedParts e = [e] := by
  simp [mergedParts, flatParts_of_isAdditive additive]

theorem mergedParts_of_not_isAdditive (apart : ¬ isAdditive e = true) :
    mergedParts e = (flatParts e).filter fun x => !isBare x := by
  refine List.filter_congr fun x member => ?_
  have other : x ≠ e := by
    rintro rfl
    exact apart (isAdditive_of_mem_flatParts member)
  simp [other]

theorem merges_of_toPool? (flat : toPool? e = some p) : merges e = [p] := by
  have additive : isAdditive e = true := by
    rw [← isSome_toPool?, flat]
    rfl
  simp [merges, mergedParts_of_isAdditive additive, flat]

theorem operandMerges_eq (x : Expr) :
    operandMerges x = ((flatParts x).filter fun y => !isBare y).filterMap toPool? := by
  rw [operandMerges]
  split
  · next bare => simp [flatParts_of_isAdditive (isAdditive_of_isBare bare), bare]
  · next compound =>
    rw [merges]
    by_cases additive : isAdditive x = true
    · simp [mergedParts_of_isAdditive additive, flatParts_of_isAdditive additive, compound]
    · rw [mergedParts_of_not_isAdditive additive]

theorem merges_unary (op : UnaryOp) (x : Expr) : merges (.unary op x) = operandMerges x := by
  have apart : ¬ isAdditive (.unary op x) = true := Bool.false_ne_true
  rw [merges, mergedParts_of_not_isAdditive apart, operandMerges_eq]
  rfl

theorem merges_binary {op : BinaryOp} {a b : Expr} (apart : ¬ isAdditive (.binary op a b) = true) :
    merges (.binary op a b) = operandMerges a ++ operandMerges b := by
  rw [merges, mergedParts_of_not_isAdditive apart, flatParts_binary apart, List.filter_append, List.filterMap_append,
    operandMerges_eq, operandMerges_eq]

theorem forall₂_merges (e : Expr) : List.Forall₂ (fun x p => toPool? x = some p) (mergedParts e) (merges e) := by
  have flat : ∀ x ∈ mergedParts e, ∃ p, toPool? x = some p := fun x member =>
    exists_toPool? (isAdditive_of_mem_flatParts (List.mem_filter.mp member).1)
  rw [merges]
  generalize mergedParts e = parts at flat ⊢
  induction parts with
  | nil => exact .nil
  | cons x xs ih =>
    obtain ⟨⟨p, head⟩, tail⟩ := List.forall_mem_cons.mp flat
    rw [List.filterMap_cons_some head]
    exact .cons head (ih tail)

end Parts

section Events

variable {e : Expr} {p : Pool}

theorem events_of_toPool? (flat : toPool? e = some p) : (contractLogged e).events = [.contracted p p.contract] := by
  cases e with
  | leaf l =>
    rw [toPool?] at flat
    simp [contractLogged, flat]
  | unary op x => cases flat
  | binary op a b => simp [contractLogged, flat]

/-- The events of an operand; a bare one is not contracted. -/
def operandEvents (x : Expr) : List Event :=
  if isBare x then [] else (contractLogged x).events

theorem events_unary (op : UnaryOp) (x : Expr) : (contractLogged (.unary op x)).events = operandEvents x := by
  rw [contractLogged, Logged.events_map, operandEvents]
  split <;> rfl

theorem events_binary {op : BinaryOp} {a b : Expr} (apart : ¬ isAdditive (.binary op a b) = true) :
    (contractLogged (.binary op a b)).events = operandEvents a ++ operandEvents b := by
  rw [contractLogged, toPool?_eq_none apart, operandEvents, operandEvents]
  cases isBare a <;> cases isBare b <;> simp

theorem operandEvents_eq {x : Expr}
    (ih : (contractLogged x).events = (merges x).map fun p => .contracted p p.contract) :
    operandEvents x = (operandMerges x).map fun p => .contracted p p.contract := by
  rw [operandEvents, operandMerges]
  split
  · rfl
  · exact ih

theorem events_contractLogged (e : Expr) :
    (contractLogged e).events = (merges e).map fun p => .contracted p p.contract := by
  induction e using contraction_induction with
  | additive e p _ flat =>
    rw [merges_of_toPool? flat]
    exact events_of_toPool? flat
  | reference name => rfl
  | unary op x ih => rw [events_unary, merges_unary, operandEvents_eq ih]
  | binary op a b apart iha ihb =>
    rw [events_binary apart, merges_binary apart, List.map_append, operandEvents_eq iha, operandEvents_eq ihb]

end Events

theorem operandMerges_contractOperand {x : Expr} (ih : merges (contract x) = (merges x).map Pool.contract) :
    operandMerges (contractOperand x) = (operandMerges x).map Pool.contract := by
  rw [contractOperand]
  by_cases bare : isBare x = true
  · rw [if_pos bare, operandMerges, if_pos bare, List.map_nil]
  · rw [if_neg bare, operandMerges, isBare_contract, operandMerges, if_neg bare]
    exact ih

theorem merges_contract (e : Expr) : merges (contract e) = (merges e).map Pool.contract := by
  induction e using contraction_induction with
  | additive e p _ flat =>
    rw [merges_of_toPool? flat, contract_eq_pool flat]
    exact merges_of_toPool? rfl
  | reference name => rfl
  | unary op x ih =>
    rw [contract_unary, merges_unary, merges_unary, operandMerges_contractOperand ih]
  | binary op a b apart iha ihb =>
    have apart' : ¬ isAdditive (contract (.binary op a b)) = true := by rwa [isAdditive_contract]
    rw [contract_binary apart] at apart' ⊢
    rw [merges_binary apart', merges_binary apart, operandMerges_contractOperand iha,
      operandMerges_contractOperand ihb, List.map_append]

def mergeTexts (p : Pool) : String × String :=
  (p.text, p.contract.text)

theorem lines_contractLogged (e : Expr) :
    (contractLogged e).events.map Event.line = ((merges e).map mergeTexts).map mergeLine := by
  rw [events_contractLogged, List.map_map, List.map_map]
  rfl

/-- One line for each merged part, from left to right, whose two texts read back as the flat form of the part and what
that is contracted to. Contracting the result tells the second text of each line twice. -/
theorem journal_of_contract (e : Expr) :
    (contractLogged e).value = contract e ∧
      ∃ lines : List (String × String),
        (contractLogged e).events.map Event.line = lines.map mergeLine ∧
          List.Forall₂ (fun x texts => ∃ p, toPool? x = some p ∧ texts = (p.text, p.contract.text))
            (mergedParts e) lines ∧
          (∀ texts ∈ lines, ∃ x, Expr.parse texts.1 = .ok x ∧ Expr.parse texts.2 = .ok (contract x)) ∧
          (contractLogged (contract e)).events.map Event.line =
            lines.map fun texts => mergeLine (texts.2, texts.2) := by
  refine ⟨value_contractLogged e, (merges e).map mergeTexts, lines_contractLogged e, ?_, ?_, ?_⟩
  · rw [List.forall₂_map_right_iff]
    exact (forall₂_merges e).imp fun x p flat => ⟨p, flat, rfl⟩
  · rw [List.forall_mem_map]
    intro p _
    have reads : ∀ q : Pool, Expr.parse q.text = .ok (pool q) := fun q =>
      parse_eq_ok_pool_iff.mpr q.parse_text
    exact ⟨pool p, reads p, reads p.contract⟩
  · rw [lines_contractLogged, merges_contract]
    simp only [List.map_map]
    refine List.map_congr_left fun p _ => ?_
    simp only [Function.comp_apply, mergeTexts, Pool.contract_contract]

/-- The factor that stands by itself makes no line. -/
example :
    (contractLogged (.binary .product (.binary .sum (die 6) (die 6)) (num 2))).events.map Event.line =
      [(.trace, "contracted \"+1D6 +1D6\" into \"+2D6\"")] := by
  decide

end Expr
end DiceAlgebra
