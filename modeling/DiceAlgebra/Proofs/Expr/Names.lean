import DiceAlgebra.Proofs.Expr.Additive
import DiceAlgebra.Proofs.Expr.Refusal

/-! The names an expression refers to. A lookup is asked for these names and no others, so it makes no difference
what it says about the rest. Contraction merges only parts that name nothing, and leaves all names in their order. -/
namespace DiceAlgebra

theorem Formula.mapM_congr {m : Type → Type} [Monad m] {α β : Type} {f g : α → m β} {x : Formula α}
    (same : ∀ a ∈ x.leaves, f a = g a) : x.mapM f = x.mapM g := by
  induction x with
  | leaf a => rw [mapM, mapM, same a (List.mem_singleton_self a)]
  | unary op x ih => rw [mapM, mapM, ih same]
  | binary op a b iha ihb =>
    rw [leaves, List.forall_mem_append] at same
    rw [mapM, mapM, iha same.1, ihb same.2]

namespace Expr

def Leaf.name? : Leaf → Option String
  | ref name => some name
  | _ => none

def names (e : Expr) : List String :=
  e.leaves.filterMap Leaf.name?

theorem names_binary (op : BinaryOp) (a b : Expr) : names (.binary op a b) = names a ++ names b := by
  rw [names, Formula.leaves, List.filterMap_append, names, names]

theorem Leaf.name?_eq_some_iff {l : Leaf} {name : String} : l.name? = some name ↔ l = .ref name := by
  cases l <;> simp [name?]

theorem mem_names_iff {e : Expr} {name : String} : name ∈ names e ↔ .ref name ∈ e.leaves := by
  simp [names, List.mem_filterMap, Leaf.name?_eq_some_iff]

theorem hasRefs_eq (e : Expr) : hasRefs e = !(names e).isEmpty := by
  unfold hasRefs names
  induction e.leaves with
  | nil => rfl
  | cons l ls ih =>
    rw [List.any_cons, ih]
    cases l <;> rfl

section Lookup

variable {σ : Type} [Roller σ] {refs refs' : References} {e : Expr}

theorem roll_congr (same : ∀ name ∈ names e, refs name = refs' name) :
    (roll refs e : EStateM EvalError σ Outcome) = roll refs' e := by
  refine Formula.mapM_congr fun l member => ?_
  cases l with
  | ref name => rw [Leaf.roll, Leaf.roll, same name (mem_names_iff.mpr member)]
  | die faces | num value | pool p => rfl

theorem mem_names_of_unresolved {name : String} {s t : σ} (h : (roll refs e).run s = .error (.unresolved name) t) :
    name ∈ names e := by
  obtain ⟨_, _, ⟨before, l, after, _, divided, -, refused, -⟩, -⟩ := (run_roll_eq_error (by simp)).mp h
  cases refused
  exact mem_names_iff.mpr (by simp [divided])

theorem isSome_of_mem_names {name : String} (named : name ∈ names e) {o : Outcome} {s t : σ}
    (h : (roll refs e).run s = .ok o t) : (refs name).isSome = true :=
  ((exists_run_roll_iff e s t).mp ⟨o, h⟩).1 _ (mem_names_iff.mp named)

end Lookup

theorem names_of_isAdditive {e : Expr} (additive : isAdditive e = true) : names e = [] := by
  induction e with
  | leaf l =>
    cases l with
    | ref name => cases additive
    | die faces | num value | pool p => rfl
  | unary op x ih => cases additive
  | binary op a b iha ihb =>
    cases op with
    | sum | difference =>
      rcases Bool.and_eq_true_iff.mp additive with ⟨additive_a, additive_b⟩
      rw [names_binary, iha additive_a, ihb additive_b, List.append_nil]
    | product | fraction | power | min | max => cases additive

theorem names_contractOperand {x : Expr} (ih : names (contract x) = names x) :
    names (contractOperand x) = names x := by
  rw [contractOperand]
  split
  · rfl
  · exact ih

theorem names_contract (e : Expr) : names (contract e) = names e := by
  induction e using contraction_induction with
  | additive e p additive flat =>
    rw [contract_eq_pool flat, names_of_isAdditive additive]
    rfl
  | reference name => rfl
  | unary op x ih => exact names_contractOperand ih
  | binary op a b apart iha ihb =>
    rw [contract_binary apart, names_binary, names_binary, names_contractOperand iha, names_contractOperand ihb]

/-- Throwing an expression comes to the same under lookups that agree on the names in it. Without names it is the
same under all lookups, and no name is reported; with names there is no outcome unless the lookup knows them.
Contraction keeps the names and their order. -/
theorem roll_depends_on_names (e : Expr) :
    (∀ (σ : Type) [Roller σ] (refs refs' : References), (∀ name ∈ names e, refs name = refs' name) →
      ∀ s : σ, (roll refs e).run s = (roll refs' e).run s) ∧
    (hasRefs e = false → ∀ (σ : Type) [Roller σ] (refs refs' : References) (s : σ),
      (roll refs e).run s = (roll refs' e).run s ∧
        ∀ name t, (roll refs e).run s ≠ .error (.unresolved name) t) ∧
    (hasRefs e = true → ∀ (σ : Type) [Roller σ] (s t : σ) (o : Outcome),
      (roll References.none e).run s ≠ .ok o t) ∧
    names (contract e) = names e ∧ hasRefs (contract e) = hasRefs e := by
  have agree : ∀ (σ : Type) [Roller σ] (refs refs' : References), (∀ name ∈ names e, refs name = refs' name) →
      ∀ s : σ, (roll refs e).run s = (roll refs' e).run s :=
    fun σ _ refs refs' same s => by rw [roll_congr same]
  refine ⟨agree, ?_, ?_, names_contract e, by rw [hasRefs_eq, names_contract, hasRefs_eq]⟩
  · intro nameless σ _ refs refs' s
    rw [hasRefs_eq, Bool.not_eq_false', List.isEmpty_iff] at nameless
    constructor
    · exact agree σ refs refs' (by simp [nameless]) s
    · intro name t h
      have named := mem_names_of_unresolved h
      simp [nameless] at named
  · intro named σ _ s t o h
    rw [hasRefs_eq, Bool.not_eq_true', List.isEmpty_eq_false_iff_exists_mem] at named
    obtain ⟨name, member⟩ := named
    cases isSome_of_mem_names member h

theorem roll_depends_on_names_product :
    let named : Expr := .binary .product (.binary .sum (ref "STR") (die 6))
      (.binary .min (.binary .difference (die 4) (num 2)) (ref "DEX"))
    let nameless : Expr := .binary .sum (die 6) (pool (.ofList [.ofParts 100001 8]))
    let refs : References := fun name => if name = "STR" then some 4 else none
    let refs' : References := fun name => if name = "STR" ∨ name = "CON" then some 4 else none
    (∀ name ∈ names named, refs name = refs' name) ∧
      (∀ s : Source, (roll refs named).run s = (roll refs' named).run s) ∧
      hasRefs nameless = false ∧
      (∀ s : Source, (roll refs nameless).run s = (roll refs' nameless).run s ∧
        ∀ name t, (roll refs nameless).run s ≠ .error (.unresolved name) t) ∧
      hasRefs named = true ∧
      (∀ (s t : Source) (o : Outcome), (roll References.none named).run s ≠ .ok o t) ∧
      names (contract named) = ["STR", "DEX"] ∧ hasRefs (contract named) = true := by
  intro named nameless refs refs'
  have same : ∀ name ∈ names named, refs name = refs' name := by
    simp [named, refs, refs', names, Formula.leaves, Leaf.name?]
  have without : hasRefs nameless = false := by decide
  have some_name : hasRefs named = true := by decide
  obtain ⟨agree, -, unresolved, kept, kept'⟩ := roll_depends_on_names named
  exact ⟨same, agree Source refs refs' same, without,
    (roll_depends_on_names nameless).2.1 without Source refs refs', some_name, unresolved some_name Source, kept,
    kept'.trans some_name⟩

end Expr
end DiceAlgebra
