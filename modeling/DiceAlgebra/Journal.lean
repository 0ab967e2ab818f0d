import DiceAlgebra.Expr.Contract
import DiceAlgebra.Expr.Eval
import DiceAlgebra.Grammar.Reader

/-! The journal: what was read, contracted and evaluated, in the order it happened. Each operation with a
journal has the value of the one without, which `value_contractLogged` says for contraction. -/
namespace DiceAlgebra

inductive Event where
  | parsed (text : String) (pool : Pool)
  | parseFailed (text : String) (problems : List Grammar.Diagnostic)
  | contracted (before after : Pool)
  | evaluated (expr : Expr) (total : Int32)
deriving DecidableEq

inductive Level where
  | debug
  | trace
deriving DecidableEq

namespace Event

/-- Contractions are many and of little interest on their own. -/
def level : Event → Level
  | contracted _ _ => .trace
  | _ => .debug

def message : Event → String
  | parsed text p => "parsed \"" ++ text ++ "\" into \"" ++ p.text ++ "\""
  | parseFailed text ds => "failed to parse \"" ++ text ++ "\": " ++ Grammar.details ds
  | contracted before after => "contracted \"" ++ before.text ++ "\" into \"" ++ after.text ++ "\""
  | evaluated e total => "evaluated \"" ++ e.text ++ "\" to " ++ Text.integer total.toInt

end Event

structure Logged (α : Type) where
  value : α
  events : List Event

instance : Monad Logged where
  pure a := ⟨a, []⟩
  bind x f := ⟨(f x.value).value, x.events ++ (f x.value).events⟩

namespace Logged

variable {α β : Type}

@[simp] theorem value_pure (a : α) : (pure a : Logged α).value = a :=
  rfl

@[simp] theorem value_bind (x : Logged α) (f : α → Logged β) : (x >>= f).value = (f x.value).value :=
  rfl

@[simp] theorem events_pure (a : α) : (pure a : Logged α).events = [] :=
  rfl

@[simp] theorem events_bind (x : Logged α) (f : α → Logged β) :
    (x >>= f).events = x.events ++ (f x.value).events :=
  rfl

@[simp] theorem value_map (f : α → β) (x : Logged α) : (f <$> x).value = f x.value :=
  rfl

@[simp] theorem events_map (f : α → β) (x : Logged α) : (f <$> x).events = x.events := by
  exact List.append_nil _

end Logged

namespace Pool

def contractLogged (p : Pool) : Logged Pool :=
  ⟨p.contract, [.contracted p p.contract]⟩

@[simp] theorem value_contractLogged (p : Pool) : p.contractLogged.value = p.contract :=
  rfl

@[simp] theorem events_contractLogged (p : Pool) :
    p.contractLogged.events = [.contracted p p.contract] :=
  rfl

def sameLogged (p q : Pool) : Logged Bool := do
  let p ← p.contractLogged
  let q ← q.contractLogged
  return p = q

/-- The event holds the text as it was given, blanks and all. -/
def parseLogged (text : String) : Logged (Except (List Grammar.Diagnostic) Pool) :=
  match Pool.parse text with
  | .ok p => ⟨.ok p, [.parsed text p]⟩
  | .error ds => ⟨.error ds, [.parseFailed text ds]⟩

end Pool

namespace Expr

def parseLogged (text : String) : Logged (Except (List Grammar.Diagnostic) Expr) := do
  let parsed ← Pool.parseLogged text
  return parsed.map pool

def contractLogged : Expr → Logged Expr
  | .leaf l =>
    match l.toPool? with
    | some p => pool <$> p.contractLogged
    | none => pure (.leaf l)
  | .unary op x => .unary op <$> if isBare x then pure x else contractLogged x
  | .binary op a b =>
    match toPool? (.binary op a b) with
    | some p => pool <$> p.contractLogged
    | none => do
      let a ← if isBare a then pure a else contractLogged a
      let b ← if isBare b then pure b else contractLogged b
      return .binary op a b

@[simp] theorem value_contractLogged (e : Expr) : (contractLogged e).value = contract e := by
  induction e with
  | leaf l =>
    rw [contractLogged, contract]
    cases l.toPool? <;> simp
  | unary op x ih =>
    rw [contractLogged, contract]
    cases isBare x <;> simp [ih]
  | binary op a b iha ihb =>
    rw [contractLogged, contract]
    cases toPool? (.binary op a b) with
    | some p => simp
    | none => cases isBare a <;> cases isBare b <;> simp [iha, ihb]

variable {σ : Type} [Roller σ]

/-- Evaluation; only one that succeeds is an event. -/
def evaluateLogged (refs : References) (e : Expr) (state : σ) :
    Logged (EStateM.Result Failure σ Int32) :=
  match (evaluate refs e).run state with
  | .ok total next => ⟨.ok total next, [.evaluated e total]⟩
  | .error failure next => ⟨.error failure next, []⟩

end Expr
end DiceAlgebra
